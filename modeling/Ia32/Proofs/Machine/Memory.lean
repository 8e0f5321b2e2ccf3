import Ia32.Machine.Memory
import Ia32.Proofs.Outcome
import Ia32.Proofs.Word
import Std.Data.HashMap.Lemmas

/-!
# Memory as a map from addresses to bytes

What a memory holds is told by which addresses are mapped and by the byte at each of them. The
table of pages is opened here only: mapping enters the pages that a range meets and changes no
byte, and storing bytes changes neither the mapped pages nor any byte outside the stored range.
-/

namespace Ia32.Memory

variable {mem mem' : Memory} {addr other : UInt32}

/-- The byte at an address; where nothing is mapped it is zero. -/
def byteAt (mem : Memory) (addr : UInt32) : UInt8 :=
  (mem.get? addr).getD 0

/-- The word at an address, low byte first. -/
def wordAt (mem : Memory) (addr : UInt32) : UInt32 :=
  Word.ofBytes (mem.byteAt addr) (mem.byteAt (addr + 1)) (mem.byteAt (addr + 2))
    (mem.byteAt (addr + 3))

/-- Stores bytes from an address on, without regard to what is mapped. -/
def put (mem : Memory) (addr : UInt32) : Bytes → Memory
  | [] => mem
  | b :: rest => (mem.set addr b).put (addr + 1) rest

/-- Whether some bytes from an address on are mapped. -/
def MappedFrom (mem : Memory) (addr : UInt32) : Nat → Prop
  | 0 => True
  | length + 1 => mem.isMapped addr = true ∧ mem.MappedFrom (addr + 1) length

/-! ### Pages and places -/

theorem toNat_pageStart (addr : UInt32) :
    (pageStart addr).toNat = addr.toNat / 4096 * 4096 := by
  have haddr := addr.toNat_lt
  have hsize : 4096 * (addr.toNat / 4096) < UInt32.size := by
    simp only [UInt32.size]
    omega
  rw [pageStart, pageOf, Abi.pageSize, UInt32.toNat_ofNat_of_lt' hsize, Nat.mul_comm]

/-- An address is its place behind the start of its page. -/
theorem toNat_pageStart_add_offset (addr : UInt32) :
    (pageStart addr).toNat + offset addr = addr.toNat := by
  rw [toNat_pageStart, offset]
  exact Nat.div_add_mod' addr.toNat 4096

/-- An address is its page and its offset. -/
theorem eq_of_pageStart_eq (hpage : pageStart other = pageStart addr)
    (hoffset : offset other = offset addr) : other = addr := by
  rw [← UInt32.toNat_inj, ← toNat_pageStart_add_offset, ← toNat_pageStart_add_offset addr, hpage,
    hoffset]

theorem isSome_get? (mem : Memory) (addr : UInt32) :
    (mem.get? addr).isSome = mem.isMapped addr := by
  rw [get?, isMapped, Option.isSome_map, Std.HashMap.isSome_getElem?_eq_contains]

/-- A byte is there exactly where the page is mapped. -/
theorem get?_eq (mem : Memory) (addr : UInt32) :
    mem.get? addr = if mem.isMapped addr then some (mem.byteAt addr) else none := by
  rw [← isSome_get?, byteAt]
  cases mem.get? addr <;> rfl

theorem get?_of_isMapped (h : mem.isMapped addr = true) :
    mem.get? addr = some (mem.byteAt addr) := by
  rw [get?_eq, if_pos h]

/-- Outside every page the byte counts as zero. -/
theorem byteAt_of_not_isMapped (h : mem.isMapped addr = false) : mem.byteAt addr = 0 := by
  rw [← isSome_get?, Option.isSome_eq_false_iff, Option.isNone_iff_eq_none] at h
  rw [byteAt, h]
  rfl

@[simp]
theorem isMapped_empty (addr : UInt32) : isMapped {} addr = false := by
  simp only [isMapped, Std.HashMap.contains_empty]

@[simp]
theorem byteAt_empty (addr : UInt32) : byteAt {} addr = 0 :=
  byteAt_of_not_isMapped (isMapped_empty addr)

/-- Two memories in which the same addresses are mapped. -/
def SameMapped (mem mem' : Memory) : Prop :=
  ∀ a, mem'.isMapped a = mem.isMapped a

theorem SameMapped.trans {mem'' : Memory} (h : SameMapped mem mem') (h' : SameMapped mem' mem'') :
    SameMapped mem mem'' :=
  fun a => (h' a).trans (h a)

/-! ### Mapping -/

/-- Entering a page maps the addresses of that page and leaves the others as they were. -/
theorem isMapped_enter {page : UInt32} :
    (mem.enter page).isMapped other = true ↔
      page = pageStart other ∨ mem.isMapped other = true := by
  simp [enter, isMapped, Std.HashMap.contains_insertIfNew]

/-- A page comes in full of zeros, so no byte changes its value. -/
theorem byteAt_enter (mem : Memory) (page other : UInt32) :
    (mem.enter page).byteAt other = mem.byteAt other := by
  simp only [byteAt, get?, enter, Std.HashMap.getElem?_insertIfNew]
  split
  next hnew =>
    -- the page is new, and holds zero where nothing was before
    rw [Std.HashMap.getElem?_eq_none (by simpa [← eq_of_beq hnew.1] using hnew.2)]
    simp [Page.zero]
  next => rfl

/-- The pages that are entered are those between the first one and the last address. -/
theorem isMapped_enterTo {last page : UInt32} (hpage : page ≤ last) :
    (mem.enterTo last page).isMapped other = true ↔
      (∃ k, (pageStart other).toNat = page.toNat + 4096 * k ∧ pageStart other ≤ last) ∨
        mem.isMapped other = true := by
  have hlast := last.toNat_lt
  have hstart := (pageStart other).toNat_lt
  rw [UInt32.le_iff_toNat_le] at hpage
  rw [UInt32.le_iff_toNat_le]
  fun_induction enterTo mem last page with
  | case1 mem page hroom next hnext ih =>
      -- a further page: it is the one of this turn, or one of those behind
      have hstep : next.toNat = page.toNat + Abi.pageSize := UInt32.toNat_ofNat_of_lt' hroom
      rw [UInt32.le_iff_toNat_le] at hnext
      have hrest : ((mem.enter page).enterTo last next).isMapped other = true ↔
          (∃ k, (pageStart other).toNat = next.toNat + 4096 * k ∧
            (pageStart other).toNat ≤ last.toNat) ∨
          (mem.enter page).isMapped other = true := ih hnext
      rw [hrest, isMapped_enter, hstep, Abi.pageSize, ← or_assoc]
      refine or_congr_left ⟨?_, ?_⟩
      · rintro (⟨k, hk, hle⟩ | rfl)
        · exact ⟨k + 1, by omega, hle⟩
        · exact ⟨0, rfl, hpage⟩
      · rintro ⟨k, hk, hle⟩
        cases k with
        | zero => exact .inr (UInt32.toNat_inj.mp hk.symm)
        | succ k => exact .inl ⟨k, by omega, hle⟩
  | case2 mem page hroom next hnext =>
      -- the next page is behind the last one
      have hstep : next.toNat = page.toNat + Abi.pageSize := UInt32.toNat_ofNat_of_lt' hroom
      rw [UInt32.le_iff_toNat_le, hstep, Abi.pageSize] at hnext
      rw [isMapped_enter]
      refine or_congr_left ⟨?_, ?_⟩
      · rintro rfl
        exact ⟨0, rfl, hpage⟩
      · rintro ⟨k, hk, hle⟩
        exact UInt32.toNat_inj.mp (by omega)
  | case3 mem page hroom =>
      -- there is no page behind this one in the address space
      rw [Abi.pageSize] at hroom
      rw [isMapped_enter]
      refine or_congr_left ⟨?_, ?_⟩
      · rintro rfl
        exact ⟨0, rfl, hpage⟩
      · rintro ⟨k, hk, hle⟩
        exact UInt32.toNat_inj.mp (by omega)

/-- A run of pages comes in full of zeros too. -/
theorem byteAt_enterTo (mem : Memory) (last page other : UInt32) :
    (mem.enterTo last page).byteAt other = mem.byteAt other := by
  fun_induction enterTo mem last page with
  | case1 mem page hroom next hnext ih => rw [ih, byteAt_enter]
  | case2 mem page hroom next hnext => exact byteAt_enter mem page other
  | case3 mem page hroom => exact byteAt_enter mem page other

@[simp]
theorem byteAt_map (mem : Memory) (addr : UInt32) (length : Nat) (other : UInt32) :
    (mem.map addr length).byteAt other = mem.byteAt other := by
  unfold map
  split
  · rfl
  · exact byteAt_enterTo mem _ _ other

/-- Whether the page of an address meets the addresses from `low` up to `high`. -/
def PageMeets (addr : UInt32) (low high : Nat) : Prop :=
  ∃ a, low ≤ a ∧ a < high ∧ a / Abi.pageSize = pageOf addr

/-- Mapping maps the pages that the range meets, up to the end of the address space. -/
theorem isMapped_map_iff {length : Nat} :
    (mem.map addr length).isMapped other = true ↔
      PageMeets other addr.toNat (min (addr.toNat + length) 4294967296) ∨
        mem.isMapped other = true := by
  have haddr := addr.toNat_lt
  have hother := other.toNat_lt
  unfold map
  split
  next hzero =>
    refine (or_iff_right ?_).symm
    rintro ⟨a, hlow, hhigh, -⟩
    omega
  next hpos =>
    have hlast : (lastPlace addr length).toNat = min (addr.toNat + (length - 1)) 4294967295 :=
      UInt32.toNat_ofNat_of_lt' (by simp only [UInt32.size]; omega)
    have hfirst : pageStart addr ≤ lastPlace addr length := by
      rw [UInt32.le_iff_toNat_le, toNat_pageStart, hlast]
      omega
    rw [isMapped_enterTo hfirst, UInt32.le_iff_toNat_le, toNat_pageStart, toNat_pageStart, hlast]
    refine or_congr_left ?_
    simp only [PageMeets, pageOf, Abi.pageSize]
    constructor
    · rintro ⟨k, hk, hle⟩
      -- the first address of the range that lies in the page
      exact ⟨max addr.toNat (other.toNat / 4096 * 4096), by omega, by omega, by omega⟩
    · rintro ⟨a, hlow, hhigh, hpage⟩
      exact ⟨other.toNat / 4096 - addr.toNat / 4096, by omega, by omega⟩

/-- Mapped addresses stay mapped. -/
theorem isMapped_map_of_isMapped (h : mem.isMapped other = true) (addr : UInt32) (length : Nat) :
    (mem.map addr length).isMapped other = true :=
  isMapped_map_iff.mpr (.inr h)

/-- Mapping never takes away a byte that is there. -/
theorem get?_map_of_get? {b : UInt8} (h : mem.get? other = some b) (addr : UInt32) (length : Nat) :
    (mem.map addr length).get? other = some b := by
  by_cases hmapped : mem.isMapped other = true
  · rw [get?_of_isMapped hmapped] at h
    rw [get?_of_isMapped (isMapped_map_of_isMapped hmapped addr length), byteAt_map, h]
  · rw [get?_eq, if_neg hmapped] at h
    cases h

/-- Mapping maps every address of the range. -/
theorem isMapped_map {length : Nat} (hlow : addr.toNat ≤ other.toNat)
    (hhigh : other.toNat < addr.toNat + length) :
    (mem.map addr length).isMapped other = true := by
  have hother := other.toNat_lt
  exact isMapped_map_iff.mpr (.inl ⟨other.toNat, hlow, by omega, rfl⟩)

/-- Mapping reaches no further than the last page of the range. -/
theorem isMapped_map_eq_false {length : Nat} (h : mem.isMapped other = false)
    (hbeyond : addr.toNat + length + Abi.pageSize ≤ other.toNat ∨
      other.toNat / Abi.pageSize < addr.toNat / Abi.pageSize) :
    (mem.map addr length).isMapped other = false := by
  rw [Bool.eq_false_iff, Ne, isMapped_map_iff]
  rintro (⟨a, hlow, hhigh, hpage⟩ | hmapped)
  · simp only [pageOf, Abi.pageSize] at hbeyond hpage
    omega
  · rw [h] at hmapped
    cases hmapped

/-! ### Addresses in a row -/

theorem toNat_succ (h : addr.toNat + 1 < 4294967296) : (addr + 1).toNat = addr.toNat + 1 := by
  rw [UInt32.toNat_add]
  exact Nat.mod_eq_of_lt h

theorem add_ofNat_zero (addr : UInt32) : addr + UInt32.ofNat 0 = addr :=
  UInt32.add_zero addr

/-- One place further from the next address on. -/
theorem succ_add_ofNat (addr : UInt32) (i : Nat) :
    addr + 1 + UInt32.ofNat i = addr + UInt32.ofNat (i + 1) := by
  rw [UInt32.ofNat_add, UInt32.add_assoc, UInt32.add_comm 1]
  rfl

/-- An offset that stays below the end of the address space does not wrap around. -/
theorem toNat_add_of_lt {n : Nat} (h : addr.toNat + n < 4294967296) :
    (addr + UInt32.ofNat n).toNat = addr.toNat + n := by
  rw [UInt32.toNat_add, UInt32.toNat_ofNat', Nat.mod_eq_of_lt (by omega : n < 2 ^ 32)]
  exact Nat.mod_eq_of_lt h

/-! ### Storing -/

@[simp]
theorem isMapped_set (mem : Memory) (addr : UInt32) (value : UInt8) (other : UInt32) :
    (mem.set addr value).isMapped other = mem.isMapped other := by
  simp only [isMapped, set, Std.HashMap.contains_modify]

@[simp]
theorem isMapped_put (mem : Memory) (addr : UInt32) (bytes : Bytes) (other : UInt32) :
    (mem.put addr bytes).isMapped other = mem.isMapped other := by
  induction bytes generalizing mem addr with
  | nil => rfl
  | cons b rest ih => rw [put, ih, isMapped_set]

/-- A store changes one byte, if it is mapped, and no other. -/
theorem get?_set (mem : Memory) (addr : UInt32) (value : UInt8) (other : UInt32) :
    (mem.set addr value).get? other =
      if other = addr then (mem.get? other).map fun _ => value else mem.get? other := by
  simp only [get?, set, Std.HashMap.getElem?_modify, beq_iff_eq]
  by_cases hpage : pageStart addr = pageStart other
  · rw [if_pos hpage]
    by_cases hsame : other = addr
    · subst hsame
      rw [if_pos rfl, Option.map_map, Option.map_map]
      exact Option.map_congr fun page _ => Vector.getElem_set_self _
    · -- another place in the same page
      have hoffset : offset addr ≠ offset other := fun h =>
        hsame (eq_of_pageStart_eq hpage.symm h.symm)
      rw [if_neg hsame, Option.map_map, hpage]
      exact Option.map_congr fun page _ =>
        Vector.getElem_set_ne _ _ (fun h => hoffset (Fin.ext h))
  · rw [if_neg hpage, if_neg]
    rintro rfl
    exact hpage rfl

theorem byteAt_set_of_ne (mem : Memory) (value : UInt8) (h : other ≠ addr) :
    (mem.set addr value).byteAt other = mem.byteAt other := by
  rw [byteAt, byteAt, get?_set, if_neg h]

theorem byteAt_set_self (h : mem.isMapped addr = true) (value : UInt8) :
    (mem.set addr value).byteAt addr = value := by
  rw [byteAt, get?_set, if_pos rfl, get?_of_isMapped h]
  rfl

/-- A mapped stretch stays mapped while the pages do. -/
theorem MappedFrom.same {length : Nat} (h : mem.MappedFrom addr length)
    (hsame : SameMapped mem mem') : mem'.MappedFrom addr length := by
  induction length generalizing addr with
  | zero => trivial
  | succ length ih => exact ⟨(hsame addr).trans h.1, ih h.2⟩

theorem mappedFrom_set (mem : Memory) (addr : UInt32) (value : UInt8) (other : UInt32)
    (length : Nat) : (mem.set addr value).MappedFrom other length ↔ mem.MappedFrom other length :=
  ⟨fun h => h.same fun a => (isMapped_set mem addr value a).symm,
    fun h => h.same (isMapped_set mem addr value)⟩

/-- Writing succeeds exactly if every address is mapped, and then stores every byte. -/
theorem write_eq_ok {bytes : Bytes} :
    mem.write addr bytes = (mem', .ok ()) ↔
      mem.MappedFrom addr bytes.length ∧ mem' = mem.put addr bytes := by
  induction bytes generalizing mem addr with
  | nil => simp [write, MappedFrom, put, eq_comm]
  | cons b rest ih =>
      rw [write]
      split
      next hmapped =>
        rw [ih, mappedFrom_set]
        simp [MappedFrom, hmapped, put]
      next hmapped => simp [MappedFrom, hmapped]

/-- A write that fails names an address that is not mapped. -/
theorem write_eq_error {bytes : Bytes} {fault : Fault}
    (h : mem.write addr bytes = (mem', .error fault)) :
    ∃ addr, fault = .unmapped addr := by
  induction bytes generalizing mem addr with
  | nil => cases h
  | cons b rest ih =>
      rw [write] at h
      split at h
      · exact ih h
      · cases h
        exact ⟨addr, rfl⟩

/-- A range is mapped if each of its addresses is. -/
theorem mappedFrom_of_isMapped {length : Nat}
    (hroom : addr.toNat + length ≤ 4294967296)
    (h : ∀ a : UInt32, addr.toNat ≤ a.toNat → a.toNat < addr.toNat + length →
      mem.isMapped a = true) :
    mem.MappedFrom addr length := by
  induction length generalizing addr with
  | zero => trivial
  | succ length ih =>
      refine ⟨h addr (Nat.le_refl _) (by omega), ?_⟩
      by_cases hzero : length = 0
      · subst hzero
        trivial
      · have hsucc : (addr + 1).toNat = addr.toNat + 1 := toNat_succ (by omega)
        exact ih (by omega) fun a hlow hhigh => h a (by omega) (by omega)

/-- Each address of a mapped stretch is mapped. -/
theorem MappedFrom.isMapped {length i : Nat} (h : mem.MappedFrom addr length) (hi : i < length) :
    mem.isMapped (addr + UInt32.ofNat i) = true := by
  induction length generalizing addr i with
  | zero => exact absurd hi (Nat.not_lt_zero i)
  | succ length ih =>
      cases i with
      | zero => exact (add_ofNat_zero addr).symm ▸ h.1
      | succ i => exact succ_add_ofNat addr i ▸ ih h.2 (Nat.lt_of_succ_lt_succ hi)

/-- Bytes written elsewhere leave an address as it was. -/
theorem byteAt_put_of_ne {bytes : Bytes} {a : UInt32}
    (h : ∀ i < bytes.length, addr + UInt32.ofNat i ≠ a) :
    (mem.put addr bytes).byteAt a = mem.byteAt a := by
  induction bytes generalizing mem addr with
  | nil => rfl
  | cons b rest ih =>
      have hfirst := h 0 (Nat.succ_pos _)
      rw [add_ofNat_zero] at hfirst
      have hrest : ∀ i < rest.length, addr + 1 + UInt32.ofNat i ≠ a := fun i hi => by
        rw [succ_add_ofNat]
        exact h (i + 1) (Nat.succ_lt_succ hi)
      rw [put, ih hrest, byteAt_set_of_ne mem b (Ne.symm hfirst)]

/-- A stored byte is found at its place, if no byte behind it is stored there. -/
theorem byteAt_put_place {bytes : Bytes} {i : Nat} (hi : i < bytes.length)
    (hmapped : mem.isMapped (addr + UInt32.ofNat i) = true)
    (hlast : ∀ j, i < j → j < bytes.length → addr + UInt32.ofNat j ≠ addr + UInt32.ofNat i) :
    (mem.put addr bytes).byteAt (addr + UInt32.ofNat i) = bytes[i] := by
  induction bytes generalizing mem addr i with
  | nil => exact absurd hi (Nat.not_lt_zero i)
  | cons b rest ih =>
      rw [put]
      cases i with
      | zero =>
          -- the bytes behind the first one are stored elsewhere
          have hrest : ∀ j < rest.length, addr + 1 + UInt32.ofNat j ≠ addr + UInt32.ofNat 0 :=
            fun j hj => by
              rw [succ_add_ofNat]
              exact hlast (j + 1) (Nat.succ_pos j) (Nat.succ_lt_succ hj)
          rw [add_ofNat_zero] at hmapped
          rw [byteAt_put_of_ne hrest, add_ofNat_zero, byteAt_set_self hmapped]
          rfl
      | succ i =>
          rw [← succ_add_ofNat] at hmapped ⊢
          refine ih (Nat.lt_of_succ_lt_succ hi) ?_ fun j hj hjlt => ?_
          · rwa [isMapped_set]
          · rw [succ_add_ofNat, succ_add_ofNat]
            exact hlast (j + 1) (Nat.succ_lt_succ hj) (Nat.succ_lt_succ hjlt)

/-- Stored bytes are found where they were stored, all others are kept. -/
theorem byteAt_put {bytes : Bytes} (hroom : addr.toNat + bytes.length ≤ 4294967296)
    (hmapped : mem.MappedFrom addr bytes.length) (other : UInt32) :
    (mem.put addr bytes).byteAt other =
      if addr.toNat ≤ other.toNat ∧ other.toNat < addr.toNat + bytes.length then
        bytes.getD (other.toNat - addr.toNat) 0
      else mem.byteAt other := by
  have hother := other.toNat_lt
  have hplace {i : Nat} (hi : i < bytes.length) :
      (addr + UInt32.ofNat i).toNat = addr.toNat + i := toNat_add_of_lt (by omega)
  split
  next hin =>
    have hi : other.toNat - addr.toNat < bytes.length := by omega
    have heq : addr + UInt32.ofNat (other.toNat - addr.toNat) = other := by
      rw [← UInt32.toNat_inj, hplace hi]
      omega
    have hlast : ∀ j, other.toNat - addr.toNat < j → j < bytes.length →
        addr + UInt32.ofNat j ≠ addr + UInt32.ofNat (other.toNat - addr.toNat) := by
      intro j hj hjlt hsame
      have hnat := congrArg UInt32.toNat hsame
      rw [hplace hjlt, hplace hi] at hnat
      omega
    have hbyte := byteAt_put_place hi (hmapped.isMapped hi) hlast
    rw [heq] at hbyte
    rw [hbyte, List.getD_eq_getElem _ _ hi]
  next hout =>
    refine byteAt_put_of_ne fun i hi heq => hout ?_
    rw [← heq, hplace hi]
    omega

/-! ### Memories that differ in a range -/

/-- Two memories with the same mapped pages that hold the same bytes outside a range. -/
structure SameOutside (low high : Nat) (mem mem' : Memory) : Prop where
  isMapped : SameMapped mem mem'
  byteAt : ∀ a : UInt32, a.toNat < low ∨ high ≤ a.toNat → mem'.byteAt a = mem.byteAt a

namespace SameOutside

variable {low high : Nat}

theorem refl (low high : Nat) (mem : Memory) : SameOutside low high mem mem :=
  ⟨fun _ => rfl, fun _ _ => rfl⟩

theorem trans {mem'' : Memory} (h : SameOutside low high mem mem')
    (h' : SameOutside low high mem' mem'') : SameOutside low high mem mem'' :=
  ⟨h.isMapped.trans h'.isMapped, fun a ha => (h'.byteAt a ha).trans (h.byteAt a ha)⟩

theorem mono {low' high' : Nat} (h : SameOutside low high mem mem') (hlow : low' ≤ low)
    (hhigh : high ≤ high') : SameOutside low' high' mem mem' :=
  ⟨h.isMapped, fun a ha => h.byteAt a (by omega)⟩

theorem get? (h : SameOutside low high mem mem') {a : UInt32}
    (ha : a.toNat < low ∨ high ≤ a.toNat) : mem'.get? a = mem.get? a := by
  rw [get?_eq, get?_eq, h.isMapped, h.byteAt a ha]

end SameOutside

/-- Writing bytes that do not wrap around changes nothing outside of them. -/
theorem sameOutside_put {bytes : Bytes} (hroom : addr.toNat + bytes.length ≤ 4294967296) :
    SameOutside addr.toNat (addr.toNat + bytes.length) mem (mem.put addr bytes) := by
  refine ⟨isMapped_put mem addr bytes, fun a ha => byteAt_put_of_ne fun i hi heq => ?_⟩
  rw [← heq, toNat_add_of_lt (by omega)] at ha
  omega

theorem sameOutside_put_word (hroom : addr.toNat + 4 ≤ 4294967296) (w : UInt32) :
    SameOutside addr.toNat (addr.toNat + 4) mem (mem.put addr (Word.toBytes w)) :=
  @sameOutside_put mem addr (Word.toBytes w) hroom

/-! ### Words -/

/-- A byte is read exactly where its page is mapped. -/
theorem read8_eq_ok {b : UInt8} :
    mem.read8 addr = .ok b ↔ mem.isMapped addr = true ∧ b = mem.byteAt addr := by
  unfold read8
  rw [get?_eq]
  by_cases h : mem.isMapped addr = true
  · simp [h, eq_comm]
  · simp [h]

/-- A byte that cannot be read is on a page that is not mapped. -/
theorem read8_eq_error {fault : Fault} (h : mem.read8 addr = .error fault) :
    ∃ addr, fault = .unmapped addr := by
  unfold read8 at h
  split at h
  · cases h
  · cases h
    exact ⟨addr, rfl⟩

/-- Reading a word succeeds exactly if its four addresses are mapped. -/
theorem read32_eq_ok {w : UInt32} :
    mem.read32 addr = .ok w ↔ mem.MappedFrom addr 4 ∧ w = mem.wordAt addr := by
  have h2 : addr + 1 + 1 = addr + 2 := by rw [UInt32.add_assoc]; rfl
  have h3 : addr + 2 + 1 = addr + 3 := by rw [UInt32.add_assoc]; rfl
  simp only [read32, bind_eq_ok, read8_eq_ok, MappedFrom, h2, h3, and_true]
  constructor
  · rintro ⟨b0, ⟨m0, rfl⟩, b1, ⟨m1, rfl⟩, b2, ⟨m2, rfl⟩, b3, ⟨m3, rfl⟩, hw⟩
    cases hw
    exact ⟨⟨m0, m1, m2, m3⟩, rfl⟩
  · rintro ⟨⟨m0, m1, m2, m3⟩, rfl⟩
    exact ⟨_, ⟨m0, rfl⟩, _, ⟨m1, rfl⟩, _, ⟨m2, rfl⟩, _, ⟨m3, rfl⟩, rfl⟩

/-- A word that cannot be read has a byte on a page that is not mapped. -/
theorem read32_eq_error {fault : Fault} (h : mem.read32 addr = .error fault) :
    ∃ addr, fault = .unmapped addr := by
  unfold read32 at h
  rcases bind_eq_error.mp h with h0 | ⟨_, -, h⟩
  · exact read8_eq_error h0
  rcases bind_eq_error.mp h with h1 | ⟨_, -, h⟩
  · exact read8_eq_error h1
  rcases bind_eq_error.mp h with h2 | ⟨_, -, h⟩
  · exact read8_eq_error h2
  rcases bind_eq_error.mp h with h3 | ⟨_, -, h⟩
  · exact read8_eq_error h3
  · cases h

theorem toNat_sub_of_le {n : Nat} (h : n ≤ addr.toNat) :
    (addr - UInt32.ofNat n).toNat = addr.toNat - n := by
  have hlt := addr.toNat_lt
  have hn : (UInt32.ofNat n).toNat = n := UInt32.toNat_ofNat_of_lt' (Nat.lt_of_le_of_lt h hlt)
  rw [UInt32.toNat_sub_of_le _ _ (UInt32.le_iff_toNat_le.mpr (by rwa [hn])), hn]

/-- A word depends on its own four bytes only. -/
theorem wordAt_congr (hroom : addr.toNat + 4 ≤ 4294967296)
    (h : ∀ a : UInt32, addr.toNat ≤ a.toNat → a.toNat < addr.toNat + 4 →
      mem'.byteAt a = mem.byteAt a) : mem'.wordAt addr = mem.wordAt addr := by
  have h1 : (addr + 1).toNat = addr.toNat + 1 := @toNat_add_of_lt addr 1 (by omega)
  have h2 : (addr + 2).toNat = addr.toNat + 2 := @toNat_add_of_lt addr 2 (by omega)
  have h3 : (addr + 3).toNat = addr.toNat + 3 := @toNat_add_of_lt addr 3 (by omega)
  rw [wordAt, wordAt, h addr (by omega) (by omega), h (addr + 1) (by omega) (by omega),
    h (addr + 2) (by omega) (by omega), h (addr + 3) (by omega) (by omega)]

theorem SameOutside.wordAt {low high : Nat} (h : SameOutside low high mem mem') {a : UInt32}
    (hroom : a.toNat + 4 ≤ 4294967296) (ha : a.toNat + 4 ≤ low ∨ high ≤ a.toNat) :
    mem'.wordAt a = mem.wordAt a :=
  wordAt_congr hroom fun b hlow hhigh => h.byteAt b (by omega)

/-- Zero bytes make a zero word, as in a memory without pages. -/
theorem wordAt_eq_zero (hroom : addr.toNat + 4 ≤ 4294967296)
    (h : ∀ a : UInt32, addr.toNat ≤ a.toNat → mem.byteAt a = 0) : mem.wordAt addr = 0 := by
  calc mem.wordAt addr = wordAt {} addr :=
        wordAt_congr hroom fun a ha _ => (h a ha).trans (byteAt_empty a).symm
    _ = 0 := by
        simp only [wordAt, byteAt_empty]
        rfl

/-- A stored word is read back, also where its addresses come around. -/
theorem wordAt_put (h : mem.MappedFrom addr 4) (w : UInt32) :
    (mem.put addr (Word.toBytes w)).wordAt addr = w := by
  have hbyte (i : Nat) (hi : i < (Word.toBytes w).length) (place : UInt32)
      (hplace : addr + UInt32.ofNat i = place) :
      (mem.put addr (Word.toBytes w)).byteAt place = (Word.toBytes w).getD i 0 := by
    subst hplace
    have hlast : ∀ j, i < j → j < (Word.toBytes w).length →
        addr + UInt32.ofNat j ≠ addr + UInt32.ofNat i := by
      intro j hj hjlt hsame
      rw [Word.length_toBytes] at hi hjlt
      have hnat := congrArg UInt32.toNat ((UInt32.add_right_inj addr).mp hsame)
      rw [UInt32.toNat_ofNat_of_lt' (Nat.lt_trans hjlt (by decide)),
        UInt32.toNat_ofNat_of_lt' (Nat.lt_trans hi (by decide))] at hnat
      exact absurd hnat (Nat.ne_of_gt hj)
    rw [byteAt_put_place hi (h.isMapped hi) hlast, List.getD_eq_getElem _ _ hi]
  rw [Word.length_toBytes] at hbyte
  rw [wordAt, hbyte 0 (by decide) addr (add_ofNat_zero addr), hbyte 1 (by decide) (addr + 1) rfl,
    hbyte 2 (by decide) (addr + 2) rfl, hbyte 3 (by decide) (addr + 3) rfl]
  exact Word.ofBytes_toBytes w

/-- Whether words can be read from an address on, one behind another. -/
def WordsAt (mem : Memory) (addr : UInt32) : List UInt32 → Prop
  | [] => True
  | w :: rest => mem.read32 addr = .ok w ∧ mem.WordsAt (addr + 4) rest

/-- Words keep their values where their bytes do. -/
theorem WordsAt.congr {words : List UInt32} (h : mem.WordsAt addr words)
    (hmapped : SameMapped mem mem') (hroom : addr.toNat + 4 * words.length ≤ 4294967296)
    (hbytes : ∀ a : UInt32, addr.toNat ≤ a.toNat → a.toNat < addr.toNat + 4 * words.length →
      mem'.byteAt a = mem.byteAt a) : mem'.WordsAt addr words := by
  induction words generalizing addr with
  | nil => trivial
  | cons w rest ih =>
      obtain ⟨hfirst, hrest⟩ := h
      obtain ⟨hword, rfl⟩ := read32_eq_ok.mp hfirst
      rw [List.length_cons] at hroom hbytes
      refine ⟨read32_eq_ok.mpr ⟨hword.same hmapped, ?_⟩, ?_⟩
      · exact (wordAt_congr (by omega) fun a hlow hhigh => hbytes a hlow (by omega)).symm
      · by_cases hlast : rest = []
        · subst hlast
          trivial
        · have hpos := List.length_pos_iff.mpr hlast
          have hnext : (addr + 4).toNat = addr.toNat + 4 := @toNat_add_of_lt addr 4 (by omega)
          exact ih hrest (by omega) fun a hlow hhigh => hbytes a (by omega) (by omega)

theorem WordsAt.same {words : List UInt32} {low high : Nat} (h : mem.WordsAt addr words)
    (hsame : SameOutside low high mem mem')
    (haddr : addr.toNat + 4 * words.length ≤ low ∨ high ≤ addr.toNat)
    (hroom : addr.toNat + 4 * words.length ≤ 4294967296) : mem'.WordsAt addr words :=
  h.congr hsame.isMapped hroom fun a hlow hhigh => hsame.byteAt a (by omega)

/-! ### Runs of bytes -/

theorem readOnto_eq_error {found : Array UInt8} {length : Nat} {fault : Fault}
    (h : mem.readOnto addr found length = .error fault) : ∃ addr, fault = .unmapped addr := by
  induction length generalizing addr found with
  | zero => cases h
  | succ length ih =>
      rw [readOnto] at h
      split at h
      · exact ih h
      · cases h
        exact ⟨addr, rfl⟩

theorem read_eq_error {length : Nat} {fault : Fault} (h : mem.read addr length = .error fault) :
    ∃ addr, fault = .unmapped addr := by
  unfold read at h
  cases hread : mem.readOnto addr #[] length with
  | error f =>
      rw [hread] at h
      cases h
      exact readOnto_eq_error hread
  | ok bytes =>
      rw [hread] at h
      cases h

/-- Whether memory holds some bytes from an address on. -/
def HasBytes (mem : Memory) (addr : UInt32) : Bytes → Prop
  | [] => True
  | b :: rest => mem.get? addr = some b ∧ mem.HasBytes (addr + 1) rest

theorem readOnto_of_hasBytes {bytes : Bytes} (h : mem.HasBytes addr bytes) (found : Array UInt8) :
    mem.readOnto addr found bytes.length = .ok (found ++ bytes.toArray) := by
  induction bytes generalizing addr found with
  | nil => simp [readOnto]
  | cons b rest ih =>
      obtain ⟨hb, hrest⟩ := h
      rw [List.length_cons, readOnto, hb]
      simp only [ih hrest, Array.push_eq_append, Array.append_assoc]
      simp

theorem read_of_hasBytes {bytes : Bytes} (h : mem.HasBytes addr bytes) :
    mem.read addr bytes.length = .ok bytes := by
  rw [read, readOnto_of_hasBytes h]
  simp [Except.map]

/-- Fetching finds the bytes that memory holds, and perhaps more. -/
theorem fetch_of_hasBytes {bytes : Bytes} (h : mem.HasBytes addr bytes) {length : Nat}
    (hlength : bytes.length ≤ length) : ∃ suffix, mem.fetch addr length = bytes ++ suffix := by
  induction bytes generalizing addr length with
  | nil => exact ⟨_, rfl⟩
  | cons b rest ih =>
      obtain ⟨hb, hrest⟩ := h
      obtain ⟨length, rfl⟩ : ∃ k, length = k + 1 := ⟨length - 1, by simp at hlength; omega⟩
      obtain ⟨suffix, hsuffix⟩ := ih hrest (Nat.le_of_succ_le_succ hlength)
      exact ⟨suffix, by rw [fetch, hb, hsuffix]; rfl⟩

/-- Memory holds the bytes that it has at each of the addresses. -/
theorem hasBytes_of_get? {bytes : Bytes} (h : ∀ i < bytes.length,
    mem.get? (addr + UInt32.ofNat i) = some (bytes.getD i 0)) : mem.HasBytes addr bytes := by
  induction bytes generalizing addr with
  | nil => trivial
  | cons b rest ih =>
      refine ⟨?_, ih fun i hi => ?_⟩
      · have hfirst := h 0 (Nat.succ_pos _)
        rwa [add_ofNat_zero] at hfirst
      · rw [succ_add_ofNat, h (i + 1) (Nat.succ_lt_succ hi), List.getD_cons_succ]

theorem hasBytes_append {first second : Bytes} :
    mem.HasBytes addr (first ++ second) ↔
      mem.HasBytes addr first ∧ mem.HasBytes (addr + UInt32.ofNat first.length) second := by
  induction first generalizing addr with
  | nil => simp [HasBytes]
  | cons b rest ih =>
      rw [List.cons_append, HasBytes, ih, succ_add_ofNat, ← and_assoc]
      rfl

/-- Memory holds the bytes that are stored in it. -/
theorem hasBytes_put {bytes : Bytes} (hroom : addr.toNat + bytes.length ≤ 4294967296)
    (hmapped : ∀ a : UInt32, addr.toNat ≤ a.toNat → a.toNat < addr.toNat + bytes.length →
      mem.isMapped a = true) : (mem.put addr bytes).HasBytes addr bytes := by
  refine hasBytes_of_get? fun i hi => ?_
  have hnat : (addr + UInt32.ofNat i).toNat = addr.toNat + i := toNat_add_of_lt (by omega)
  have hplace := hmapped (addr + UInt32.ofNat i) (by omega) (by omega)
  rw [get?_of_isMapped ((isMapped_put mem addr bytes _).trans hplace),
    byteAt_put hroom (mappedFrom_of_isMapped hroom hmapped), if_pos (by omega), hnat,
    Nat.add_sub_cancel_left]

end Ia32.Memory

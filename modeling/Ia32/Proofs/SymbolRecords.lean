import Ia32.Proofs.SymbolTable

/-!
# Symbol records that were read are written back

A reader takes records from the front as long as each spells a symbol, that is, is complete and
has a name of well-formed bytes that is not empty. What it makes of the input depends on the
first record that does not, and on nothing behind it. A table that was read can be written, in no
more bytes than it was read from, and is read again from those.
-/

namespace Ia32.SymbolTable

/-- The bytes of the record at an index, fewer if the input ends inside it. -/
def recordAt (bytes : Bytes) (index : Nat) : Bytes :=
  (bytes.drop (recordLength * index)).take recordLength

/-- The name in a record, without the zeros that fill it up and all that follows them. -/
def nameField (record : Bytes) : Bytes :=
  (record.take nameLength).takeWhile (· != 0)

/-- A record is complete and holds the name and the address of a symbol. -/
structure Spells (record : Bytes) (entry : Symbol) : Prop where
  complete : record.length = recordLength
  named : entry.name ≠ ""
  name : utf8Bytes entry.name = nameField record
  address : entry.address = frontWord (record.drop nameLength)

/-- The records from the front on hold some symbols, one after another. -/
def SpellsAll (bytes : Bytes) (entries : List Symbol) : Prop :=
  ∀ (i : Nat) (h : i < entries.length), Spells (recordAt bytes i) entries[i]

/-! ### Records of the input -/

theorem recordAt_zero (bytes : Bytes) : recordAt bytes 0 = bytes.take recordLength := rfl

theorem recordAt_succ (bytes : Bytes) (index : Nat) :
    recordAt bytes (index + 1) = recordAt (bytes.drop recordLength) index := by
  rw [recordAt, recordAt, List.drop_drop, Nat.mul_succ, Nat.add_comm recordLength]

/-- A record does not depend on what stands behind it. -/
theorem recordAt_take {bytes : Bytes} {index count : Nat} (h : index < count) :
    recordAt (bytes.take (recordLength * count)) index = recordAt bytes index := by
  have hroom : recordLength * index + recordLength ≤ recordLength * count :=
    Nat.mul_le_mul_left recordLength h
  rw [recordAt, recordAt, List.drop_take, List.take_take, Nat.min_eq_left (by omega)]

/-- A record is incomplete exactly if the bytes end within it. -/
theorem length_recordAt_lt (bytes : Bytes) (index : Nat) :
    (recordAt bytes index).length < recordLength ↔
      (bytes.drop (recordLength * index)).length < recordLength := by
  rw [recordAt, List.length_take]
  omega

theorem length_le_of_complete {bytes : Bytes} {index : Nat}
    (h : ¬(recordAt bytes index).length < recordLength) :
    recordLength * (index + 1) ≤ bytes.length := by
  have hpos : 0 < recordLength := by decide
  rw [length_recordAt_lt, List.length_drop] at h
  rw [Nat.mul_succ]
  omega

theorem frontWord_take (bytes : Bytes) : frontWord (bytes.take 4) = frontWord bytes := by
  match bytes with
  | [] | [_] | [_, _] | [_, _, _] => rfl
  | _ :: _ :: _ :: _ :: _ => rfl

theorem length_nameField_le (record : Bytes) : (nameField record).length ≤ nameLength :=
  (List.takeWhile_prefix _).length_le.trans (List.length_take_le _ _)

/-- A name ends in front of its first zero. -/
theorem zero_notMem_nameField (record : Bytes) : 0 ∉ nameField record := by
  intro h
  have hzero := List.mem_takeWhile_imp h
  simp at hzero

/-- A name that is read has no zero character. -/
theorem Spells.zero_notMem {record : Bytes} {entry : Symbol} (h : Spells record entry) :
    '\x00' ∉ entry.name.toList := by
  intro hmem
  apply zero_notMem_nameField record
  rw [← h.name, utf8Bytes_eq_flatMap]
  exact List.mem_flatMap.mpr ⟨_, hmem, by decide⟩

/-- A name that is read is no longer than its field. -/
theorem Spells.length_name {record : Bytes} {entry : Symbol} (h : Spells record entry) :
    (utf8Bytes entry.name).length ≤ nameLength := by
  rw [h.name]
  exact length_nameField_le record

/-! ### Reading -/

/-- A record at the front that holds a symbol is read as that symbol. -/
theorem readRecords_of_spells {bytes : Bytes} {entry : Symbol} (h : Spells (recordAt bytes 0) entry)
    (fuel index : Nat) :
    readRecords (fuel + 1) index bytes =
      (readRecords fuel (index + 1) (bytes.drop recordLength)).map (entry :: ·) := by
  have hlength := h.complete
  rw [recordAt_zero, List.length_take] at hlength
  have hfield : (bytes.take nameLength).takeWhile (· != 0) = utf8Bytes entry.name := by
    rw [h.name, nameField, recordAt_zero, List.take_take]
    rfl
  have hword : frontWord (bytes.drop nameLength) = entry.address := by
    rw [h.address, recordAt_zero, ← frontWord_take, List.drop_take]
    rfl
  have hname : ¬(utf8Bytes entry.name).isEmpty := by
    rw [List.isEmpty_iff, utf8Bytes_eq_nil_iff]
    exact h.named
  rw [readRecords, if_neg (by omega), hfield]
  dsimp only
  rw [if_neg hname, Text.ofUtf8?_utf8Bytes, hword]
  cases readRecords fuel (index + 1) (bytes.drop recordLength) <;> rfl

/-- What reading comes to at a record that holds no symbol. -/
theorem readRecords_of_not_spells {bytes : Bytes} (h : ∀ entry, ¬Spells (recordAt bytes 0) entry)
    (fuel index : Nat) :
    readRecords (fuel + 1) index bytes =
      if (recordAt bytes 0).length < recordLength then .error (.truncated (recordLength * index))
      else if nameField (recordAt bytes 0) = [] then .ok []
      else .error (.invalidName index) := by
  have hfield : (bytes.take nameLength).takeWhile (· != 0) = nameField (recordAt bytes 0) := by
    rw [nameField, recordAt_zero, List.take_take]
    rfl
  have hshort := length_recordAt_lt bytes 0
  rw [Nat.mul_zero, List.drop_zero] at hshort
  rw [readRecords, hfield]
  simp only [hshort, List.isEmpty_iff]
  split
  case isTrue => rfl
  case isFalse hfull =>
    split
    case isTrue => rfl
    case isFalse hname =>
      split
      next => rfl
      next text htext =>
        -- a name that can be read would make the record hold a symbol
        have hspelled := Text.utf8Bytes_of_ofUtf8? htext
        refine absurd ⟨?_, ?_, hspelled, rfl⟩
          (h ⟨text, frontWord ((recordAt bytes 0).drop nameLength)⟩)
        · rw [recordAt_zero, List.length_take]
          omega
        · rw [ne_eq, ← utf8Bytes_eq_nil_iff, hspelled]
          exact hname

/-- Behind the first record the others are spelled. -/
theorem SpellsAll.tail {bytes : Bytes} {entry : Symbol} {rest : List Symbol}
    (h : SpellsAll bytes (entry :: rest)) : SpellsAll (bytes.drop recordLength) rest := by
  intro i hi
  rw [← recordAt_succ]
  exact h (i + 1) (Nat.succ_lt_succ hi)

/-- Records at the front that hold symbols are read as those, and reading goes on behind them. -/
theorem readRecords_of_spellsAll {bytes : Bytes} {entries : List Symbol}
    (h : SpellsAll bytes entries) (fuel index : Nat) :
    readRecords (fuel + entries.length) index bytes =
      (readRecords fuel (index + entries.length)
        (bytes.drop (recordLength * entries.length))).map (entries ++ ·) := by
  induction entries generalizing bytes index with
  | nil =>
      change readRecords fuel index bytes = (readRecords fuel index bytes).map _
      cases readRecords fuel index bytes <;> rfl
  | cons entry rest ih =>
      have hindex : index + 1 + rest.length = index + (rest.length + 1) := by omega
      have hplace : recordLength + recordLength * rest.length =
          recordLength * (rest.length + 1) := by
        rw [Nat.mul_succ, Nat.add_comm]
      rw [List.length_cons, ← Nat.add_assoc, readRecords_of_spells (h 0 (Nat.zero_lt_succ _)),
        ih h.tail, List.drop_drop, hindex, hplace]
      cases readRecords fuel (index + (rest.length + 1))
        (bytes.drop (recordLength * (rest.length + 1))) <;> rfl

/-- Every input has a first record that holds no symbol. -/
theorem exists_spellsAll (bytes : Bytes) :
    ∃ entries, SpellsAll bytes entries ∧
      ∀ entry, ¬Spells (recordAt bytes entries.length) entry := by
  classical
  have hend : ∃ count, ∀ entry, ¬Spells (recordAt bytes count) entry := by
    refine ⟨bytes.length, fun entry hspells => ?_⟩
    have hpos : 0 < recordLength := by decide
    have hroom := length_le_of_complete (Nat.not_lt.mpr (Nat.le_of_eq hspells.complete.symm))
    have hmore := Nat.le_mul_of_pos_left (bytes.length + 1) hpos
    omega
  have hfront : ∀ i < Nat.find hend, ∃ entry, Spells (recordAt bytes i) entry := by
    intro i hi
    simpa using Nat.find_min hend hi
  choose symbol hsymbol using hfront
  refine ⟨List.ofFn fun i : Fin (Nat.find hend) => symbol i i.isLt, ?_, ?_⟩
  · intro i hi
    rw [List.getElem_ofFn]
    exact hsymbol i _
  · rw [List.length_ofFn]
    exact Nat.find_spec hend

/-- The first record that holds no symbol decides what is read, however much fuel there is. -/
theorem readRecords_eq {bytes : Bytes} {entries : List Symbol} (h : SpellsAll bytes entries)
    (hend : ∀ entry, ¬Spells (recordAt bytes entries.length) entry) {fuel : Nat}
    (hfuel : entries.length < fuel) :
    readRecords fuel 0 bytes =
      if (recordAt bytes entries.length).length < recordLength then
        .error (.truncated (recordLength * entries.length))
      else if nameField (recordAt bytes entries.length) = [] then .ok entries
      else .error (.invalidName entries.length) := by
  obtain ⟨left, rfl⟩ := Nat.exists_eq_add_of_lt hfuel
  have hfirst : recordAt (bytes.drop (recordLength * entries.length)) 0 =
      recordAt bytes entries.length := rfl
  have hnext := @readRecords_of_not_spells (bytes.drop (recordLength * entries.length))
    (by rwa [hfirst]) left (0 + entries.length)
  have hsplit : entries.length + left + 1 = left + 1 + entries.length := by omega
  rw [hsplit, readRecords_of_spellsAll h, hnext, hfirst, Nat.zero_add]
  split
  case isTrue => rfl
  case isFalse =>
    split
    · exact congrArg Except.ok (List.append_nil entries)
    · rfl

/-- The bytes are at least as long as the records they spell. -/
theorem SpellsAll.length_le {bytes : Bytes} {entries : List Symbol} (h : SpellsAll bytes entries) :
    recordLength * entries.length ≤ bytes.length := by
  cases hcount : entries.length with
  | zero => exact Nat.zero_le _
  | succ count =>
      have hspells := h count (by omega)
      exact length_le_of_complete (Nat.not_lt.mpr (Nat.le_of_eq hspells.complete.symm))

/-- Bytes are read up to the first record that spells no symbol; it ends the table or makes it an
error. -/
theorem ofBytes_eq {bytes : Bytes} {entries : List Symbol} (h : SpellsAll bytes entries)
    (hend : ∀ entry, ¬Spells (recordAt bytes entries.length) entry) :
    ofBytes bytes =
      if (recordAt bytes entries.length).length < recordLength then
        .error (.truncated (recordLength * entries.length))
      else if nameField (recordAt bytes entries.length) = [] then .ok ⟨entries⟩
      else .error (.invalidName entries.length) := by
  have hlength := h.length_le
  have hmore := Nat.le_mul_of_pos_left entries.length (by decide : 0 < recordLength)
  rw [ofBytes, readRecords_eq h hend (by omega)]
  split
  case isTrue => rfl
  case isFalse => split <;> rfl

theorem Spells.nameField_ne_nil {record : Bytes} {entry : Symbol} (h : Spells record entry) :
    nameField record ≠ [] := by
  rw [← h.name, ne_eq, utf8Bytes_eq_nil_iff]
  exact h.named

/-- A table is read from exactly its records and a complete one without a name. -/
theorem ofBytes_eq_ok_iff {bytes : Bytes} {table : SymbolTable} :
    ofBytes bytes = .ok table ↔ SpellsAll bytes table.entries ∧
      (recordAt bytes table.entries.length).length = recordLength ∧
      nameField (recordAt bytes table.entries.length) = [] := by
  have hle : ∀ i, (recordAt bytes i).length ≤ recordLength := fun i => List.length_take_le _ _
  constructor
  · intro h
    obtain ⟨entries, hspells, hend⟩ := exists_spellsAll bytes
    rw [ofBytes_eq hspells hend] at h
    split at h
    case isTrue => cases h
    case isFalse hfull =>
      split at h
      case isTrue hname =>
        cases h
        exact ⟨hspells, Nat.le_antisymm (hle _) (Nat.not_lt.mp hfull), hname⟩
      case isFalse => cases h
  · rintro ⟨hspells, hfull, hname⟩
    rw [ofBytes_eq hspells fun entry hentry => hentry.nameField_ne_nil hname,
      if_neg (Nat.not_lt.mpr (Nat.le_of_eq hfull.symm)), if_pos hname]

/-- Records are reported as truncated exactly where the first of them that holds no symbol is
not complete. -/
theorem ofBytes_eq_truncated_iff {bytes : Bytes} {offset : Nat} :
    ofBytes bytes = .error (.truncated offset) ↔ ∃ count, offset = recordLength * count ∧
      (∀ i < count, ∃ entry, Spells (recordAt bytes i) entry) ∧
      (bytes.drop offset).length < recordLength := by
  obtain ⟨entries, hspells, hend⟩ := exists_spellsAll bytes
  rw [ofBytes_eq hspells hend]
  constructor
  · intro h
    split at h
    case isTrue hshort =>
      cases h
      exact ⟨entries.length, rfl, fun i hi => ⟨_, hspells i hi⟩,
        (length_recordAt_lt bytes _).mp hshort⟩
    case isFalse =>
      split at h <;> cases h
  · rintro ⟨count, rfl, hfront, hshort⟩
    have hincomplete := (length_recordAt_lt bytes count).mpr hshort
    -- both counts are that of the records in front of the first one that holds no symbol
    have hcount : entries.length = count := by
      apply Nat.le_antisymm
      · by_contra hlt
        have hcomplete := (hspells count (Nat.not_le.mp hlt)).complete
        omega
      · by_contra hlt
        obtain ⟨entry, hentry⟩ := hfront entries.length (Nat.not_le.mp hlt)
        exact hend entry hentry
    rw [hcount, if_pos hincomplete]

/-! ### Writing what was read -/

/-- What has been read can be written. -/
theorem exists_writeRecords {bytes : Bytes} {entries : List Symbol} (h : SpellsAll bytes entries) :
    ∃ written, writeRecords entries = .ok written := by
  induction entries generalizing bytes with
  | nil => exact ⟨_, rfl⟩
  | cons entry rest ih =>
      have hfirst := h 0 (Nat.zero_lt_succ _)
      obtain ⟨back, hback⟩ := ih h.tail
      have hfront : record entry = .ok _ :=
        record_eq_ok.mpr ⟨hfirst.named, hfirst.length_name, rfl⟩
      exact ⟨_, writeRecords_cons_eq_ok.mpr ⟨_, back, hfront, hback, rfl⟩⟩

/-- Each symbol that is read has a record of its own. -/
theorem SpellsAll.exists_spells {bytes : Bytes} {entries : List Symbol}
    (h : SpellsAll bytes entries)
    {entry : Symbol} (hentry : entry ∈ entries) : ∃ i, Spells (recordAt bytes i) entry := by
  obtain ⟨i, hi, rfl⟩ := List.getElem_of_mem hentry
  exact ⟨i, h i hi⟩

/-- What has been written is read back, as long as no name has a zero in it. -/
theorem ofBytes_of_writeRecords {entries : List Symbol} {written : Bytes}
    (h : writeRecords entries = .ok written)
    (hzero : ∀ entry ∈ entries, '\x00' ∉ entry.name.toList) :
    ofBytes written = .ok ⟨entries⟩ := by
  have hlength := length_writeRecords h
  have hbound := Nat.le_mul_of_pos_left (entries.length + 1) (by decide : 0 < recordLength)
  have hfuel : entries.length < written.length + 1 := by omega
  have hread := readRecords_writeRecords h hfuel 0 []
  rw [List.append_nil, (legible_eq_self_iff (name_ne_empty_of_writeRecords h)).mpr hzero] at hread
  rw [ofBytes, hread]
  rfl

/-- Reading ends within one round for every complete record and one more. A table that is read
can be written in no more bytes, from which it is read again; its names have 1 to 32 bytes, no
zero character among them, and are those of the records; and it is read from these records and
the one behind them alone. Only where the input ends in a record with symbols in all records in
front of it is it too short. -/
theorem ofBytes_settles (bytes : Bytes) :
    (∀ fuel, bytes.length < recordLength * fuel →
      ofBytes bytes = (readRecords fuel 0 bytes).map SymbolTable.mk) ∧
    (∀ table, ofBytes bytes = .ok table →
      (∃ written, table.toBytes = .ok written ∧ written.length ≤ bytes.length ∧
        ofBytes written = .ok table) ∧
      SpellsAll bytes table.entries ∧
      (∀ entry ∈ table.entries, entry.name ≠ "" ∧ '\x00' ∉ entry.name.toList ∧
        (utf8Bytes entry.name).length ≤ nameLength) ∧
      ofBytes (bytes.take (recordLength * (table.entries.length + 1))) = .ok table) ∧
    ∀ offset, ofBytes bytes = .error (.truncated offset) ↔
      ∃ count, offset = recordLength * count ∧
        (∀ i < count, ∃ entry, Spells (recordAt bytes i) entry) ∧
        (bytes.drop offset).length < recordLength := by
  refine ⟨?fuel, ?table, fun offset => ofBytes_eq_truncated_iff⟩
  case fuel =>
    intro fuel hfuel
    obtain ⟨entries, hspells, hend⟩ := exists_spellsAll bytes
    have hcount : entries.length < fuel :=
      Nat.lt_of_mul_lt_mul_left (Nat.lt_of_le_of_lt hspells.length_le hfuel)
    rw [ofBytes_eq hspells hend, readRecords_eq hspells hend hcount]
    split
    case isTrue => rfl
    case isFalse => split <;> rfl
  case table =>
    intro table htable
    obtain ⟨hspells, hfull, hname⟩ := ofBytes_eq_ok_iff.mp htable
    have hnames : ∀ entry ∈ table.entries, entry.name ≠ "" ∧ '\x00' ∉ entry.name.toList ∧
        (utf8Bytes entry.name).length ≤ nameLength := by
      intro entry hentry
      obtain ⟨i, hi⟩ := hspells.exists_spells hentry
      exact ⟨hi.named, hi.zero_notMem, hi.length_name⟩
    obtain ⟨written, hwritten⟩ := exists_writeRecords hspells
    refine ⟨⟨written, hwritten, ?_, ?_⟩, hspells, hnames, ?_⟩
    · rw [length_writeRecords hwritten]
      exact length_le_of_complete (Nat.not_lt.mpr (Nat.le_of_eq hfull.symm))
    · exact ofBytes_of_writeRecords hwritten fun entry hentry => (hnames entry hentry).2.1
    · rw [ofBytes_eq_ok_iff, recordAt_take (Nat.lt_succ_self _)]
      refine ⟨fun i hi => ?_, hfull, hname⟩
      rw [recordAt_take (Nat.lt_succ_of_lt hi)]
      exact hspells i hi

/-- A record whose name fills it, a record with other bytes behind its name, and a record
without a name in front of more bytes. -/
def strewn : Bytes :=
  utf8Bytes "éééééééééééééééé" ++ [0x00, 0x00, 0x00, 0x10] ++
    (utf8Bytes "exit" ++ 0 :: List.replicate 27 0xAA ++ [2, 0, 0, 0]) ++
    0 :: List.replicate 40 0xFF

theorem ofBytes_settles_strewn :
    ofBytes strewn = .ok ⟨[⟨"éééééééééééééééé", 0x10000000⟩, ⟨"exit", 2⟩]⟩ ∧
      (∃ written, toBytes ⟨[⟨"éééééééééééééééé", 0x10000000⟩, ⟨"exit", 2⟩]⟩ = .ok written ∧
        written.length ≤ 113 ∧ ofBytes written = ofBytes strewn) ∧
      ofBytes (strewn.take 108) = ofBytes strewn := by
  have hread : ofBytes strewn = .ok ⟨[⟨"éééééééééééééééé", 0x10000000⟩, ⟨"exit", 2⟩]⟩ := by
    decide +kernel
  obtain ⟨-, htable, -⟩ := ofBytes_settles strewn
  obtain ⟨hwritten, -, -, htake⟩ := htable _ hread
  rw [hread]
  exact ⟨rfl, hwritten, htake⟩

end Ia32.SymbolTable

import Ia32.SymbolTable
import Ia32.Proofs.Outcome
import Ia32.Proofs.Word
import Ia32.Proofs.Text.Utf8

/-!
# Symbol records are read back

Records are written with names of 1 to 32 bytes, whatever the characters, and the reader takes
a name up to its first zero byte. So a table comes back as it was exactly if none of its names
contains the zero character. A name with one comes back cut, and a name that starts with one
ends the table.
-/

namespace Ia32

namespace SymbolTable

/-! ### One record -/

/-- A record is written for a name that is not empty and fits its field. -/
theorem record_eq_ok {entry : Symbol} {bytes : Bytes} :
    record entry = .ok bytes ↔
      entry.name ≠ "" ∧ (utf8Bytes entry.name).length ≤ nameLength ∧
        bytes = utf8Bytes entry.name ++
          List.replicate (nameLength - (utf8Bytes entry.name).length) 0 ++
          Word.toBytes entry.address := by
  simp only [record, List.isEmpty_iff, utf8Bytes_eq_nil_iff]
  split
  case isTrue hbad =>
    refine iff_of_false nofun ?_
    rintro ⟨hname, hlength, -⟩
    rcases hbad with hempty | hlong
    · exact hname hempty
    · omega
  case isFalse hgood =>
    rw [not_or, not_lt] at hgood
    rw [Except.ok.injEq]
    exact ⟨fun h => ⟨hgood.1, hgood.2, h.symm⟩, fun h => h.2.2.symm⟩

theorem length_record {entry : Symbol} {bytes : Bytes} (h : record entry = .ok bytes) :
    bytes.length = recordLength := by
  obtain ⟨-, hlength, rfl⟩ := record_eq_ok.mp h
  rw [List.length_append, List.length_append, List.length_replicate, Word.length_toBytes,
    recordLength]
  omega

theorem take_record {entry : Symbol} {bytes : Bytes} (h : record entry = .ok bytes)
    (rest : Bytes) :
    (bytes ++ rest).take nameLength = utf8Bytes entry.name ++
      List.replicate (nameLength - (utf8Bytes entry.name).length) 0 := by
  obtain ⟨-, hlength, rfl⟩ := record_eq_ok.mp h
  rw [List.append_assoc]
  apply List.take_left'
  rw [List.length_append, List.length_replicate]
  omega

theorem frontWord_toBytes (word : UInt32) (rest : Bytes) :
    frontWord (Word.toBytes word ++ rest) = word :=
  Word.ofBytes_toBytes word

theorem frontWord_drop_record {entry : Symbol} {bytes : Bytes} (h : record entry = .ok bytes)
    (rest : Bytes) : frontWord ((bytes ++ rest).drop nameLength) = entry.address := by
  obtain ⟨-, hlength, rfl⟩ := record_eq_ok.mp h
  rw [List.append_assoc, List.drop_left', frontWord_toBytes]
  rw [List.length_append, List.length_replicate]
  omega

theorem drop_record {entry : Symbol} {bytes : Bytes} (h : record entry = .ok bytes)
    (rest : Bytes) : (bytes ++ rest).drop recordLength = rest :=
  List.drop_left' (length_record h)

/-! ### All records -/

/-- The part of some records that a reader finds again: names end at their first zero
character, and a record whose name is empty then ends the table. -/
def legible : List Symbol → List Symbol
  | [] => []
  | entry :: rest =>
      if Text.beforeZero entry.name = "" then []
      else ⟨Text.beforeZero entry.name, entry.address⟩ :: legible rest

theorem legible_cons_of_beforeZero {entry : Symbol} (h : Text.beforeZero entry.name ≠ "")
    (rest : List Symbol) :
    legible (entry :: rest) = ⟨Text.beforeZero entry.name, entry.address⟩ :: legible rest :=
  if_neg h

/-- Records are written one after the other. -/
theorem writeRecords_cons_eq_ok {entry : Symbol} {rest : List Symbol} {bytes : Bytes} :
    writeRecords (entry :: rest) = .ok bytes ↔
      ∃ front back, record entry = .ok front ∧ writeRecords rest = .ok back ∧
        bytes = front ++ back := by
  rw [writeRecords, bind_eq_ok]
  constructor
  · rintro ⟨front, hfront, hback⟩
    obtain ⟨back, hback, hbytes⟩ := bind_eq_ok.mp hback
    exact ⟨front, back, hfront, hback, (Except.ok.inj hbytes).symm⟩
  · rintro ⟨front, back, hfront, hback, rfl⟩
    exact ⟨front, hfront, bind_eq_ok.mpr ⟨back, hback, rfl⟩⟩

/-- A written table has one record more than symbols, the one that ends it. -/
theorem length_writeRecords {entries : List Symbol} {bytes : Bytes}
    (h : writeRecords entries = .ok bytes) :
    bytes.length = recordLength * (entries.length + 1) := by
  induction entries generalizing bytes with
  | nil =>
      cases h
      rfl
  | cons entry rest ih =>
      obtain ⟨front, back, hfront, hback, rfl⟩ := writeRecords_cons_eq_ok.mp h
      rw [List.length_append, length_record hfront, ih hback, List.length_cons,
        Nat.add_comm recordLength, Nat.mul_succ recordLength (rest.length + 1)]

/-- Reading a record and what follows it. -/
theorem readRecords_record {entry : Symbol} {front : Bytes} (h : record entry = .ok front)
    (fuel index : Nat) (rest : Bytes) :
    readRecords (fuel + 1) index (front ++ rest) =
      if Text.beforeZero entry.name = "" then .ok []
      else (readRecords fuel (index + 1) rest).map
        fun symbols => ⟨Text.beforeZero entry.name, entry.address⟩ :: symbols := by
  have hlength : ¬ (front ++ rest).length < recordLength := by
    rw [List.length_append, length_record h]
    omega
  have hend := List.isEmpty_iff.trans (utf8Bytes_eq_nil_iff (Text.beforeZero entry.name))
  rw [readRecords, if_neg hlength, take_record h, takeWhile_utf8Bytes]
  dsimp only
  split
  case isTrue hempty => rw [if_pos (hend.mp hempty)]
  case isFalse hname =>
    rw [if_neg (mt hend.mpr hname), Text.ofUtf8?_utf8Bytes, drop_record h,
      frontWord_drop_record h]
    dsimp only
    cases readRecords fuel (index + 1) rest <;> rfl

/-- A record of zeros ends the table. -/
theorem readRecords_end (fuel index : Nat) (rest : Bytes) :
    readRecords (fuel + 1) index (List.replicate recordLength 0 ++ rest) = .ok [] := by
  have hlength : ¬ (List.replicate recordLength (0 : UInt8) ++ rest).length < recordLength := by
    rw [List.length_append, List.length_replicate]
    omega
  rw [readRecords, if_neg hlength]
  rfl

/-- Written records are read back as far as they are legible. -/
theorem readRecords_writeRecords {entries : List Symbol} {bytes : Bytes}
    (h : writeRecords entries = .ok bytes) {fuel : Nat} (hfuel : entries.length < fuel)
    (index : Nat) (rest : Bytes) :
    readRecords fuel index (bytes ++ rest) = .ok (legible entries) := by
  -- every record takes one unit of fuel, and so does the end of the table
  induction entries generalizing bytes fuel index with
  | nil =>
      cases h
      obtain ⟨fuel, rfl⟩ := Nat.exists_eq_add_of_lt hfuel
      exact readRecords_end _ index rest
  | cons entry entries ih =>
      obtain ⟨front, back, hfront, hback, rfl⟩ := writeRecords_cons_eq_ok.mp h
      obtain ⟨fuel, rfl⟩ := Nat.exists_eq_succ_of_ne_zero (Nat.ne_zero_of_lt hfuel)
      rw [List.append_assoc, readRecords_record hfront, legible]
      split
      case isTrue => rfl
      case isFalse =>
        rw [ih hback (Nat.lt_of_succ_lt_succ hfuel)]
        rfl

/-- All records with names are found again exactly if no name is cut. -/
theorem legible_eq_self_iff {entries : List Symbol} (hnames : ∀ entry ∈ entries, entry.name ≠ "") :
    legible entries = entries ↔ ∀ entry ∈ entries, '\x00' ∉ entry.name.toList := by
  induction entries with
  | nil => exact iff_of_true rfl nofun
  | cons entry rest ih =>
      rw [List.forall_mem_cons] at hnames ⊢
      rw [← Text.beforeZero_eq_self_iff, ← ih hnames.2]
      constructor
      · intro h
        -- a name that is cut to nothing ends the table, and then the record is not found
        have hcut : Text.beforeZero entry.name ≠ "" := by
          intro hempty
          rw [legible, if_pos hempty] at h
          cases h
        rw [legible_cons_of_beforeZero hcut] at h
        exact ⟨congrArg Symbol.name (List.cons.inj h).1, (List.cons.inj h).2⟩
      · rintro ⟨hname, hrest⟩
        have hcut : Text.beforeZero entry.name ≠ "" := by
          rw [hname]
          exact hnames.1
        rw [legible_cons_of_beforeZero hcut, hname, hrest]

theorem name_ne_empty_of_writeRecords {entries : List Symbol} {bytes : Bytes}
    (h : writeRecords entries = .ok bytes) : ∀ entry ∈ entries, entry.name ≠ "" := by
  induction entries generalizing bytes with
  | nil => exact nofun
  | cons entry rest ih =>
      obtain ⟨front, back, hfront, hback, rfl⟩ := writeRecords_cons_eq_ok.mp h
      exact List.forall_mem_cons.mpr ⟨(record_eq_ok.mp hfront).1, ih hback⟩

/-- The records of a table, with any bytes behind them, are read as the table's legible part,
which is the whole table exactly if no name contains the zero character. -/
theorem records_read_back {table : SymbolTable} {bytes : Bytes} (h : table.toBytes = .ok bytes)
    (rest : Bytes) :
    bytes.length = recordLength * (table.entries.length + 1) ∧
      ofBytes (bytes ++ rest) = .ok ⟨legible table.entries⟩ ∧
      (ofBytes (bytes ++ rest) = .ok table ↔
        ∀ entry ∈ table.entries, '\x00' ∉ entry.name.toList) := by
  have hlength := length_writeRecords h
  have hfuel : table.entries.length < (bytes ++ rest).length + 1 := by
    have hbound := Nat.le_mul_of_pos_left (table.entries.length + 1) (by decide : 0 < recordLength)
    rw [List.length_append, hlength]
    omega
  have hread : ofBytes (bytes ++ rest) = .ok ⟨legible table.entries⟩ := by
    rw [ofBytes, readRecords_writeRecords h hfuel]
    rfl
  refine ⟨hlength, hread, ?_⟩
  rw [hread, Except.ok.injEq, ← legible_eq_self_iff (name_ne_empty_of_writeRecords h)]
  obtain ⟨entries⟩ := table
  rw [SymbolTable.mk.injEq]

/-- A name may fill its record to the last byte, and two records may share a name. -/
theorem records_read_back_full :
    ∃ bytes,
      toBytes ⟨[⟨"éééééééééééééééé", 0x10000000⟩, ⟨"exit", 2⟩, ⟨"exit", 3⟩]⟩ = .ok bytes ∧
        bytes.length = 144 ∧
        ofBytes (bytes ++ [0xAA]) =
          .ok ⟨[⟨"éééééééééééééééé", 0x10000000⟩, ⟨"exit", 2⟩, ⟨"exit", 3⟩]⟩ := by
  have h := @records_read_back
    ⟨[⟨"éééééééééééééééé", 0x10000000⟩, ⟨"exit", 2⟩, ⟨"exit", 3⟩]⟩ _ rfl [0xAA]
  exact ⟨_, rfl, h.1, h.2.2.mpr (by decide)⟩

/-- A name that starts with the zero character is written, and then it ends the table: the
records behind it are lost. -/
theorem records_read_back_zero :
    ∃ bytes, toBytes ⟨[⟨"\x00", 1⟩, ⟨"exit", 2⟩]⟩ = .ok bytes ∧
      ofBytes bytes = .ok ⟨[]⟩ ∧ ofBytes bytes ≠ .ok ⟨[⟨"\x00", 1⟩, ⟨"exit", 2⟩]⟩ :=
  ⟨_, rfl, rfl, by decide⟩

end SymbolTable

end Ia32

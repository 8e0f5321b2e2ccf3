import Ia32.Text.Utf8

/-!
# Tables of external symbols

The host offers library functions in a table of names and addresses. In memory
the table is a run of records of 36 bytes, a name filled up with zeros and an
address, ended by a record without a name.
-/

namespace Ia32

/-- A name with its address. -/
structure Symbol where
  name : String
  address : UInt32
  deriving DecidableEq, Repr

/-- External symbols in the order of their records. -/
structure SymbolTable where
  entries : List Symbol := []
  deriving DecidableEq, Repr

namespace SymbolTable

/-- The table of some names with their addresses. -/
def ofPairs (pairs : List (String × UInt32)) : SymbolTable :=
  ⟨pairs.map fun (name, address) => ⟨name, address⟩⟩

/-- The address in the first record with a name. -/
def lookup? (table : SymbolTable) (name : String) : Option UInt32 :=
  (table.entries.find? fun entry => entry.name == name).map Symbol.address

/-- Whether a record has a name. -/
def contains (table : SymbolTable) (name : String) : Bool :=
  (table.lookup? name).isSome

/-- The reasons why records cannot be read or written. -/
inductive RecordError where
  | truncated (offset : Nat)
  | invalidName (index : Nat)
  | nameTooLong (name : String)
  deriving DecidableEq, Repr

/-- The complaint about records. -/
def RecordError.message : RecordError → String
  | .truncated offset => "Jump table truncated at byte " ++ toString offset
  | .invalidName index => "Jump table entry " ++ toString index ++ " has a non UTF-8 name"
  | .nameTooLong name => "Jump table entry name too long: " ++ name

/-- Bytes of a name in a record. -/
def nameLength : Nat := 32

/-- Bytes of a record. -/
def recordLength : Nat := nameLength + 4

/-- The word at the front of some bytes; missing bytes count as zero. -/
def frontWord : Bytes → UInt32
  | b0 :: b1 :: b2 :: b3 :: _ => Word.ofBytes b0 b1 b2 b3
  | _ => 0

/-- Reads records up to the one without a name; `index` counts those read. The
number of records is bounded by `fuel`. -/
def readRecords : Nat → Nat → Bytes → Except RecordError (List Symbol)
  | 0, index, _ => .error (.truncated (recordLength * index))
  | fuel + 1, index, bytes =>
      if bytes.length < recordLength then .error (.truncated (recordLength * index))
      else
        let name := (bytes.take nameLength).takeWhile (· != 0)
        if name.isEmpty then .ok []
        else
          match Text.ofUtf8? name with
          | none => .error (.invalidName index)
          | some text => do
              let rest ← readRecords fuel (index + 1) (bytes.drop recordLength)
              return ⟨text, frontWord (bytes.drop nameLength)⟩ :: rest

/-- Reads a table from its records. -/
def ofBytes (bytes : Bytes) : Except RecordError SymbolTable := do
  return ⟨← readRecords (bytes.length + 1) 0 bytes⟩

/-- The record of a symbol. -/
def record (entry : Symbol) : Except RecordError Bytes :=
  let name := utf8Bytes entry.name
  if name.isEmpty ∨ nameLength < name.length then .error (.nameTooLong entry.name)
  else .ok (name ++ List.replicate (nameLength - name.length) 0 ++ Word.toBytes entry.address)

/-- Writes records, and the one without a name that ends them. -/
def writeRecords : List Symbol → Except RecordError Bytes
  | [] => .ok (List.replicate recordLength 0)
  | entry :: rest => do
      let front ← record entry
      return front ++ (← writeRecords rest)

/-- The records of a table. -/
def toBytes (table : SymbolTable) : Except RecordError Bytes :=
  writeRecords table.entries

end SymbolTable

end Ia32

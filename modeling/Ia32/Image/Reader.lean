import Ia32.Image
import Ia32.Machine.State

/-!
# Reading and loading images

The header is read field by field at fixed places. Loading maps every segment,
copies its bytes from the file, and starts a machine at the entry.
-/

namespace Ia32

/-- The reasons why bytes are no image for this machine. -/
inductive ImageError where
  | notImage
  | wrongClass
  | wrongByteOrder
  | notExecutable
  | wrongMachine
  | wrongSegmentSize
  | needsLibrary
  | truncated (length : Nat)
  deriving DecidableEq, Repr

/-- The complaint about an image. -/
def ImageError.message : ImageError → String
  | .notImage => "Not an ELF image"
  | .wrongClass => "Unsupported image: not ELFCLASS32"
  | .wrongByteOrder => "Unsupported image: not little endian"
  | .notExecutable => "Unsupported image: not an executable"
  | .wrongMachine => "Unsupported image: not EM_386"
  | .wrongSegmentSize => "Unsupported image: unexpected program header size"
  | .needsLibrary => "Image needs the shared library, which is not available here"
  | .truncated length => "Image truncated: " ++ toString length ++ " bytes"

/-- The reasons why an image cannot be loaded. -/
inductive LoadError where
  | image (e : ImageError)
  | fault (f : Fault)
  deriving DecidableEq, Repr

/-- The complaint about an image that cannot be loaded. -/
def LoadError.message : LoadError → String
  | .image e => e.message
  | .fault f => f.message

namespace Image

/-- The half word at a place of the file. -/
def half (bytes : Bytes) (place : Nat) : Except ImageError Nat :=
  match bytes.drop place with
  | b0 :: b1 :: _ => .ok (b0.toNat + 256 * b1.toNat)
  | _ => .error (.truncated bytes.length)

/-- The word at a place of the file. -/
def word (bytes : Bytes) (place : Nat) : Except ImageError UInt32 :=
  match bytes.drop place with
  | b0 :: b1 :: b2 :: b3 :: _ => .ok (Word.ofBytes b0 b1 b2 b3)
  | _ => .error (.truncated bytes.length)

/-- The entry of the segment table at a place, if the segment is loaded. Its
bytes must lie inside the file. -/
def segmentAt (bytes : Bytes) (place : Nat) : Except ImageError (Option Segment) := do
  if (← word bytes place) ≠ loadable then return none
  let seg : Segment := {
    offset := ← word bytes (place + 4)
    address := ← word bytes (place + 8)
    fileSize := ← word bytes (place + 16)
    memorySize := ← word bytes (place + 20)
    flags := ← word bytes (place + 24) }
  if bytes.length < seg.offset.toNat + seg.fileSize.toNat then throw (.truncated bytes.length)
  return some seg

/-- The loaded segments among consecutive entries of the segment table. -/
def segmentsFrom (bytes : Bytes) (place : Nat) : Nat → Except ImageError (List Segment)
  | 0 => .ok []
  | count + 1 => do
      match ← segmentAt bytes place with
      | none => segmentsFrom bytes (place + segmentSize) count
      | some seg => return seg :: (← segmentsFrom bytes (place + segmentSize) count)

/-- Reads the header and the segment table. -/
def parse (bytes : Bytes) : Except ImageError Image := do
  if bytes.take 4 ≠ magic then throw .notImage
  if bytes.length < headerSize then throw (.truncated bytes.length)
  if bytes[4]? ≠ some class32 then throw .wrongClass
  if bytes[5]? ≠ some lowFirst then throw .wrongByteOrder
  if (← half bytes 16) ≠ kindExecutable then throw .notExecutable
  if (← half bytes 18) ≠ machine386 then throw .wrongMachine
  let flags ← word bytes 36
  if flags &&& needsLibraryFlag ≠ 0 then throw .needsLibrary
  let table ← word bytes 28
  let size ← half bytes 42
  let count ← half bytes 44
  if 0 < count ∧ size ≠ segmentSize then throw .wrongSegmentSize
  let segments ← segmentsFrom bytes table.toNat count
  return ⟨← word bytes 24, flags, segments⟩

/-- Maps segments and copies their bytes from the file. -/
def loadSegments (bytes : Bytes) (mem : Memory) : List Segment → Except Fault Memory
  | [] => .ok mem
  | seg :: rest =>
      let size := max seg.memorySize.toNat seg.fileSize.toNat
      let contents := (bytes.drop seg.offset.toNat).take seg.fileSize.toNat
      match (mem.map seg.address size).write seg.address contents with
      | (mem, .ok ()) => loadSegments bytes mem rest
      | (_, .error fault) => .error fault

/-- Loads an image into a machine that stands at its entry. -/
def load (bytes : Bytes) : Except LoadError Machine :=
  match parse bytes with
  | .error e => .error (.image e)
  | .ok image =>
      match loadSegments bytes {} image.segments with
      | .error fault => .error (.fault fault)
      | .ok mem => .ok (Machine.start mem image.entry)

end Image

end Ia32

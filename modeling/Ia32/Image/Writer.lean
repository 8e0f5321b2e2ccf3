import Ia32.Asm.Assembly
import Ia32.Image

/-!
# Writing images

The image of a program has a page for the header and the segment table, then
the code and the data, each filled up with zeros to whole pages.
-/

namespace Ia32.Image

/-- Fills up with zeros to a length. -/
def padTo (length : Nat) (bytes : Bytes) : Bytes :=
  bytes ++ List.replicate (length - bytes.length) 0

/-- The identification at the start of the file. -/
def identification : Bytes :=
  padTo 16 (magic ++ [class32, lowFirst, version])

/-- The header of an image with three segments. -/
def header (entry flags : UInt32) : Bytes :=
  identification ++ Word.halfBytes kindExecutable ++ Word.halfBytes machine386 ++
    Word.toBytes version.toUInt32 ++ Word.toBytes entry ++
    Word.toBytes (UInt32.ofNat headerSize) ++ Word.toBytes 0 ++ Word.toBytes flags ++
    Word.halfBytes headerSize ++ Word.halfBytes segmentSize ++ Word.halfBytes 3 ++
    Word.halfBytes 0 ++ Word.halfBytes 0 ++ Word.halfBytes 0

/-- An entry of the segment table. The segment is as long in the file as in
memory. -/
def segmentEntry (offset address size flags : UInt32) : Bytes :=
  Word.toBytes loadable ++ Word.toBytes offset ++ Word.toBytes address ++ Word.toBytes address ++
    Word.toBytes size ++ Word.toBytes size ++ Word.toBytes flags ++
    Word.toBytes (UInt32.ofNat Abi.pageSize)

/-- The image of a program. Code that starts like an image is refused. -/
def ofAssembly (asm : Asm.Assembly) : Except Asm.Error Bytes := do
  if asm.code.head? = magic.head? then throw .malformedImage
  let textSize ← Asm.ofChecked (Abi.alignUp asm.code.length Abi.pageSize)
  let dataSize ← Asm.ofChecked (Abi.alignUp asm.data.length Abi.pageSize)
  let page := UInt32.ofNat Abi.pageSize
  let dataOffset ← Asm.ofChecked (Word.offset page textSize)
  let finish ← Asm.ofChecked (Word.offset dataOffset dataSize)
  let entry ← Asm.ofChecked asm.entryAddress
  let textBase ← Asm.ofChecked asm.textBase
  let dataBase ← Asm.ofChecked asm.dataBase
  let front := header entry (if asm.needsLibrary then needsLibraryFlag else 0) ++
    segmentEntry 0 asm.layout.base page canRead ++
    segmentEntry page textBase (UInt32.ofNat textSize) (canRead ||| canExecute) ++
    segmentEntry dataOffset dataBase (UInt32.ofNat dataSize) (canRead ||| canWrite)
  let withCode := padTo Abi.pageSize front ++ asm.code
  return padTo finish.toNat (padTo dataOffset.toNat withCode ++ asm.data)

end Ia32.Image

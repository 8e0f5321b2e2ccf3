import Ia32.Abi
import Ia32.Word

/-!
# Executable images

The file format of programs: a fixed header, a table of segments, and the
contents of the segments, each loaded at an address of its own. Numbers are
stored low byte first.
-/

namespace Ia32

/-- A part of the file with its place in memory. -/
structure Segment where
  offset : UInt32
  address : UInt32
  fileSize : UInt32
  memorySize : UInt32
  flags : UInt32
  deriving DecidableEq, Repr

/-- The header of an image. -/
structure Image where
  entry : UInt32
  flags : UInt32
  segments : List Segment
  deriving DecidableEq, Repr

namespace Image

/-- The first bytes of every image. -/
def magic : Bytes := [0x7F, 0x45, 0x4C, 0x46]

/-- Class of files for 32-bit machines. -/
def class32 : UInt8 := 1

/-- Byte order with the low byte first. -/
def lowFirst : UInt8 := 1

/-- Version of the format. -/
def version : UInt8 := 1

/-- Kind of files that can be executed. -/
def kindExecutable : Nat := 2

/-- Number of the machine. -/
def machine386 : Nat := 3

/-- Kind of segments that are loaded. -/
def loadable : UInt32 := 1

/-- Access rights of a segment. -/
def canExecute : UInt32 := 1

/-- Access rights of a segment. -/
def canWrite : UInt32 := 2

/-- Access rights of a segment. -/
def canRead : UInt32 := 4

/-- Flag of an image that needs the shared library. -/
def needsLibraryFlag : UInt32 := 1

/-- Bytes of the header. -/
def headerSize : Nat := 52

/-- Bytes of an entry of the segment table. -/
def segmentSize : Nat := 32

end Image

end Ia32

/-!
# Words, bytes and bounded sums

The machine works on 32-bit words stored low byte first. Addresses are words
too, but the tools that place code refuse a sum that leaves the address space
instead of wrapping it, so such sums are `Checked`.
-/

namespace Ia32

/-- A run of bytes, first byte first. -/
abbrev Bytes := List UInt8

/-- The failure of an operation whose result leaves the range of its type. -/
inductive Overflow where
  | overflow
  deriving DecidableEq, Repr

/-- Computations that stop when a result leaves its range. -/
abbrev Checked := Except Overflow

/-- Eight low bits of an integer. -/
def byteOfInt (v : Int) : UInt8 :=
  UInt8.ofNat (v % 256).toNat

/-- Reads a byte as a two's complement number. -/
def signedByte (b : UInt8) : Int :=
  if b.toNat < 128 then b.toNat else (b.toNat : Int) - 256

/-- The UTF-8 bytes of a text. -/
def utf8Bytes (s : String) : Bytes :=
  s.toUTF8.data.toList

namespace Word

/-- Thirty-two low bits of an integer. -/
def ofInt (v : Int) : UInt32 :=
  UInt32.ofNat (v % 4294967296).toNat

/-- Reads a word as a two's complement number. -/
def toSigned (w : UInt32) : Int :=
  if w.toNat < 2147483648 then w.toNat else (w.toNat : Int) - 4294967296

/-- The four bytes of a word, low byte first. -/
def toBytes (w : UInt32) : Bytes :=
  [UInt8.ofNat (w.toNat % 256), UInt8.ofNat (w.toNat / 256 % 256),
    UInt8.ofNat (w.toNat / 65536 % 256), UInt8.ofNat (w.toNat / 16777216 % 256)]

/-- The word whose bytes are given low byte first. -/
def ofBytes (b0 b1 b2 b3 : UInt8) : UInt32 :=
  UInt32.ofNat (b0.toNat + 256 * b1.toNat + 65536 * b2.toNat + 16777216 * b3.toNat)

/-- The two bytes of a half word, low byte first. -/
def halfBytes (n : Nat) : Bytes :=
  [UInt8.ofNat (n % 256), UInt8.ofNat (n / 256 % 256)]

/-- The address `offset` bytes after `base`, refused beyond the last address. -/
def offset (base : UInt32) (offset : Nat) : Checked UInt32 :=
  if base.toNat + offset < 4294967296 then .ok (UInt32.ofNat (base.toNat + offset))
  else .error .overflow

/-- A difference of lengths, refused below zero. -/
def difference (a b : Nat) : Checked Nat :=
  if b ≤ a then .ok (a - b) else .error .overflow

end Word

end Ia32

import Ia32.Word

/-!
# Text from bytes

Strict reading accepts exactly the well-formed byte strings. Lenient reading
puts the replacement character for every longest run of bytes that starts a
character and does not finish it, and for every byte that starts none.
-/

namespace Ia32.Text

/-- The text with the given UTF-8 bytes, if they are well formed. -/
def ofUtf8? (bytes : Bytes) : Option String :=
  String.fromUTF8? ⟨bytes.toArray⟩

/-- An unfinished character: the range that its next byte must lie in, the
number of bytes still missing, and the bits read so far. -/
structure Pending where
  low : Nat
  high : Nat
  missing : Nat
  bits : Nat
  deriving DecidableEq, Repr

/-- The character shown in place of bytes that encode none. -/
def replacement : Char :=
  Char.ofNat 0xFFFD

/-- What a byte means in front of a character: a character of its own, the
start of a longer one, or nothing. -/
def leadByte (byte : UInt8) : List Char × Option Pending :=
  let n := byte.toNat
  if n < 0x80 then ([Char.ofNat n], none)
  else if 0xC2 ≤ n ∧ n ≤ 0xDF then ([], some ⟨0x80, 0xBF, 1, n - 0xC0⟩)
  else if n = 0xE0 then ([], some ⟨0xA0, 0xBF, 2, 0⟩)
  else if n = 0xED then ([], some ⟨0x80, 0x9F, 2, 0xD⟩)
  else if 0xE1 ≤ n ∧ n ≤ 0xEF then ([], some ⟨0x80, 0xBF, 2, n - 0xE0⟩)
  else if n = 0xF0 then ([], some ⟨0x90, 0xBF, 3, 0⟩)
  else if n = 0xF4 then ([], some ⟨0x80, 0x8F, 3, 4⟩)
  else if 0xF1 ≤ n ∧ n ≤ 0xF3 then ([], some ⟨0x80, 0xBF, 3, n - 0xF0⟩)
  else ([replacement], none)

/-- Takes one byte: the characters that it completes, and the character that
it leaves unfinished. -/
def takeByte (pending : Option Pending) (byte : UInt8) : List Char × Option Pending :=
  match pending with
  | none => leadByte byte
  | some p =>
      if p.low ≤ byte.toNat ∧ byte.toNat ≤ p.high then
        let bits := 64 * p.bits + byte.toNat % 64
        if p.missing ≤ 1 then ([Char.ofNat bits], none)
        else ([], some ⟨0x80, 0xBF, p.missing - 1, bits⟩)
      else
        let (chars, next) := leadByte byte
        (replacement :: chars, next)

/-- Lenient reading that continues an unfinished character. -/
def lossyFrom (pending : Option Pending) : Bytes → List Char
  | [] => if pending.isSome then [replacement] else []
  | byte :: rest =>
      let (chars, next) := takeByte pending byte
      chars ++ lossyFrom next rest

/-- Lenient reading of bytes as text. -/
def ofUtf8Lossy (bytes : Bytes) : String :=
  String.ofList (lossyFrom none bytes)

end Ia32.Text

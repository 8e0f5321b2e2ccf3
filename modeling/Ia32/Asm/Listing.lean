import Ia32.Asm.Assembly

/-!
# Printed listings

Every line of source stands beside its address and bytes, eight bytes to a
row.
-/

namespace Ia32.Asm

/-- Bytes shown on a row. -/
def bytesPerRow : Nat := 8

/-- Cuts bytes into pieces of one row. The number of pieces is bounded by `fuel`. -/
def cutRows : Nat → Bytes → List Bytes
  | 0, _ => []
  | fuel + 1, bytes =>
      if bytes.isEmpty then []
      else bytes.take bytesPerRow :: cutRows fuel (bytes.drop bytesPerRow)

/-- The address and the bytes on a row. -/
def rowHead (addr : UInt32) (bytes : Bytes) : String :=
  "[" ++ Text.paint [.cyan] (Text.hexUpper 8 addr.toNat) ++ "] " ++
    Text.padRight 23 (Text.joinWith " " (bytes.map fun b => Text.hexUpper 2 b.toNat)) ++ " |"

namespace Listed

/-- The number and the text of the line. -/
def tail (l : Listed) : String :=
  " " ++ Text.padLeft ' ' 4 (toString l.line) ++ ": " ++ l.source

/-- Rows behind the first one, which have no text; `index` counts rows. -/
def moreRows (addr : UInt32) (index : Nat) : List Bytes → Checked (List String)
  | [] => .ok []
  | bytes :: rest => do
      let head := rowHead (← Word.offset addr (bytesPerRow * index)) bytes
      return head :: (← moreRows addr (index + 1) rest)

/-- The rows of a line. -/
def rows (l : Listed) : Checked (List String) :=
  match l.address with
  | none => .ok [Text.repeated 35 ' ' ++ "|" ++ l.tail]
  | some addr =>
      match cutRows l.bytes.length l.bytes with
      | [] => .ok [rowHead addr [] ++ l.tail]
      | first :: rest => do
          return (rowHead addr first ++ l.tail) :: (← moreRows addr 1 rest)

end Listed

namespace Assembly

/-- The rows of some lines. -/
def rowsOf : List Listed → Checked (List String)
  | [] => .ok []
  | l :: rest => do return (← l.rows) ++ (← rowsOf rest)

/-- The rows of all lines. -/
def rows (asm : Assembly) : Checked (List String) :=
  rowsOf asm.listing

/-- The printed listing of a program read from a file. -/
def dump (asm : Assembly) (path : String) : Checked String := do
  let rows ← asm.rows
  return Text.repeated 35 '-' ++ "+------[" ++ path ++ "]" ++
    Text.repeated (45 - path.utf8ByteSize) '-' ++ "\n" ++
    String.join (rows.map (· ++ "\n")) ++
    Text.repeated 35 '-' ++ "+" ++ Text.repeated 53 '-' ++ "\n"

end Assembly

end Ia32.Asm

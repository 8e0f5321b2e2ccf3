import Ia32.Asm.Assembly
import Ia32.Yaml.Writer

/-!
# Symbol maps

The addresses of the labels of a program, with the bytes up to the next label
of the same section, for tools that inspect a running program. As in the
assembler, extents are natural numbers, and words as long as both sections stay
below 4 GiB.
-/

namespace Ia32.Asm

/-- The address and the extent of a label. -/
structure SymbolEntry where
  address : UInt32
  size : Nat
  deriving DecidableEq, Repr

/-- The labels of both sections in the order of their definitions. -/
structure SymbolMap where
  entry : UInt32
  needsLibrary : Bool
  code : List (String × SymbolEntry)
  data : List (String × SymbolEntry)
  deriving DecidableEq, Repr

namespace Assembly

/-- The smallest offset above the given one among labels of a section, or the
end of the section. -/
def nextOffset (asm : Assembly) (sect : Section) (offset finish : Nat) : Nat :=
  let above := asm.labels.entries.filterMap fun (_, other) =>
    if other.sect = sect ∧ offset < other.offset then some other.offset else none
  above.min?.getD finish

/-- The entry of a label. -/
def symbolEntry (asm : Assembly) (label : Label) : Checked SymbolEntry := do
  let base ← match label.sect with
    | .text => asm.textBase
    | .data => asm.dataBase
  let finish := match label.sect with
    | .text => asm.code.length
    | .data => asm.data.length
  let address ← Word.offset base label.offset
  return ⟨address, ← Word.difference (asm.nextOffset label.sect label.offset finish) label.offset⟩

/-- The entries of the labels of a section. -/
def symbolEntries (asm : Assembly) (sect : Section) :
    List (String × Label) → Checked (List (String × SymbolEntry))
  | [] => .ok []
  | (name, label) :: rest =>
      if label.sect = sect then do
        let entry ← asm.symbolEntry label
        return (name, entry) :: (← asm.symbolEntries sect rest)
      else asm.symbolEntries sect rest

/-- The symbol map of a program. -/
def symbolMap (asm : Assembly) : Checked SymbolMap := do
  return {
    code := ← asm.symbolEntries .text asm.labels.entries
    data := ← asm.symbolEntries .data asm.labels.entries
    entry := ← asm.entryAddress
    needsLibrary := asm.needsLibrary }

end Assembly

namespace SymbolMap

/-- The written form of one label. -/
def renderEntry : String × SymbolEntry → String
  | (name, entry) =>
      Yaml.nestedKey "  " name ("addr: " ++ toString entry.address.toNat) ++
        "    size: " ++ toString entry.size ++ "\n"

/-- The written form of the labels of a section. -/
def renderSection (key : String) (entries : List (String × SymbolEntry)) : String :=
  if entries.isEmpty then key ++ ": \x7b\x7d\n"
  else key ++ ":\n" ++ String.join (entries.map renderEntry)

/-- The written form of a map. -/
def render (map : SymbolMap) : String :=
  "entry: " ++ toString map.entry.toNat ++ "\n" ++
    "needs_library: " ++ (if map.needsLibrary then "true" else "false") ++ "\n" ++
    renderSection "code" map.code ++ renderSection "data" map.data

end SymbolMap

end Ia32.Asm

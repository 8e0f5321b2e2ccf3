import Ia32.Machine.Trace
import Ia32.SymbolTable
import Ia32.Yaml.Reader

/-!
# Configuration

On the host, external symbols may be written as a mapping from names to
addresses, and the points of a trace as a mapping from addresses.
-/

namespace Ia32

/-! ### External symbols -/

namespace SymbolTable

/-- Puts a symbol into a list in the order of names; the name's former record is
replaced. -/
def insertSorted (entry : Symbol) : List Symbol → List Symbol
  | [] => [entry]
  | other :: rest =>
      if entry.name = other.name then entry :: rest
      else if entry.name < other.name then entry :: other :: rest
      else other :: insertSorted entry rest

/-- The symbol written as an entry of a mapping. -/
def readSymbol (document : Yaml.Document) : Yaml.Node × Yaml.Node → Yaml.Decoding Symbol
  | (key, value) => do
      let name ← document.decode Yaml.Node.text? key
      return ⟨String.ofList name, ← document.decode Yaml.Node.word? value⟩

/-- Reads a table written as a mapping. Its records come in the order of names,
and of two entries with one name the later counts. -/
def ofYaml? (text : String) : Option SymbolTable := do
  let document ← Yaml.read? text
  let symbols ← document.decodeRoot? fun root => do
    (← document.decode Yaml.Node.entries? root).mapM (readSymbol document)
  return ⟨symbols.foldl (fun sorted entry => insertSorted entry sorted) []⟩

end SymbolTable

/-! ### Traces -/

namespace TracePoint

/-- Reads one field of a trace point. No field may come twice; fields with other
names do not count. -/
def readField (document : Yaml.Document) (seen : Option Bool × Option (List UInt32)) :
    Yaml.Node × Yaml.Node → Yaml.Decoding (Option Bool × Option (List UInt32))
  | (key, value) => do
      let name ← document.decode Yaml.Node.text? key
      if name = "stack".toList then
        if seen.1.isSome then failure
        else return (some (← document.decode Yaml.Node.truth? value), seen.2)
      else if name = "memory".toList then
        if seen.2.isSome then failure
        else
          let items ← document.decode Yaml.Node.items? value
          return (seen.1, some (← items.mapM (document.decode Yaml.Node.word?)))
      else return seen

/-- Reads a trace point. -/
def read (document : Yaml.Document) (node : Yaml.Node) : Yaml.Decoding TracePoint := do
  let entries ← document.decode Yaml.Node.entries? node
  let (stack, memory) ← entries.foldlM (readField document) (none, none)
  return ⟨stack.getD false, memory.getD []⟩

end TracePoint

namespace Trace

/-- Puts a point at an address, in place of the one that was there. -/
def insertPoint (points : List (UInt32 × TracePoint)) (addr : UInt32) (point : TracePoint) :
    List (UInt32 × TracePoint) :=
  points.filter (fun (other, _) => other != addr) ++ [(addr, point)]

/-- Reads the points of a trace, a mapping from addresses. -/
def points? (text : String) : Option (List (UInt32 × TracePoint)) := do
  let document ← Yaml.read? text
  document.decodeRoot? fun root => do
    let entries ← document.decode Yaml.Node.entries? root
    entries.foldlM (fun points (key, value) => do
      let addr ← document.decode Yaml.Node.word? key
      return insertPoint points addr (← TracePoint.read document value)) []

end Trace

end Ia32

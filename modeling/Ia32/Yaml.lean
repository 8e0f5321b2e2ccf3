import Ia32.Text.Numeral

/-!
# Configuration documents

A document is a tree of mappings, sequences and scalars, in which a reference
stands for a part that carries an anchor. How a scalar was written matters: a
plain scalar can stand for a number or a truth value, and an empty plain scalar
stands for an absent value.

A part is decoded against what its reader expects of it. Decoding follows the
references that it meets, and gives up when it has followed a hundred of them
for each mark of the document.
-/

namespace Ia32.Yaml

/-- How a scalar is written. -/
inductive Style where
  | plain
  | singleQuoted
  | doubleQuoted
  | literal
  | folded
  deriving DecidableEq, Repr

/-- A part of a document. A reference holds the number of an anchor. -/
inductive Node where
  | scalar (style : Style) (tag : Option (List Char)) (text : List Char)
  | sequence (items : List Node)
  | mapping (entries : List (Node × Node))
  | reference (number : Nat)

/-- A part that carries an anchor. Several parts can have one number; of these
the one that starts last counts. -/
structure Anchored where
  number : Nat
  start : Nat
  node : Node

/-- A document with its anchors. -/
structure Document where
  root : Node
  anchored : List Anchored := []

/-- Digits with zeros in front, which are a text and not a number. -/
def isPaddedNumber (s : List Char) : Bool :=
  match s with
  | '0' :: c :: rest => (c :: rest).all Char.isDigit
  | _ => false

/-- The digits of a number with the base that the characters in front announce. -/
def magnitude? (s : List Char) : Option Nat :=
  match s with
  | '0' :: 'x' :: digits => Text.natural? 16 digits
  | '0' :: 'o' :: digits => Text.natural? 8 digits
  | '0' :: 'b' :: digits => Text.natural? 2 digits
  | digits => if isPaddedNumber digits then none else Text.natural? 10 digits

/-- A whole number without a minus sign. -/
def unsigned? (s : List Char) : Option Nat :=
  match s with
  | '+' :: rest => magnitude? rest
  | rest => magnitude? rest

/-- A whole number. -/
def integer? (s : List Char) : Option Int :=
  match s with
  | '-' :: rest => (magnitude? rest).map fun n => -(n : Int)
  | rest => (unsigned? rest).map Int.ofNat

/-- A truth value. -/
def truth? (s : List Char) : Option Bool :=
  if s ∈ ["true".toList, "True".toList, "TRUE".toList] then some true
  else if s ∈ ["false".toList, "False".toList, "FALSE".toList] then some false
  else none

/-- The tag of a type that every document knows. -/
def standardTag (name : String) : List Char :=
  "tag:yaml.org,2002:".toList ++ name.toList

namespace Node

/-- A value that is not there. -/
def absent : Node :=
  .scalar .plain none []

/-- The text of a scalar. -/
def text? : Node → Option (List Char)
  | .scalar _ _ text => some text
  | _ => none

/-- The text of a scalar that can stand for a value of a type: a plain one, or a
literal one with the tag of the type. -/
def typedText? (type : String) : Node → Option (List Char)
  | .scalar .plain _ text => some text
  | .scalar .literal tag text => if tag = some (standardTag type) then some text else none
  | _ => none

/-- A number that fits a word; zero has no minus sign either. -/
def word? (node : Node) : Option UInt32 := do
  let n ← unsigned? (← node.typedText? "int")
  if n < 4294967296 then some (UInt32.ofNat n) else none

/-- A truth value. -/
def truth? (node : Node) : Option Bool := do
  Yaml.truth? (← node.typedText? "bool")

/-- The entries of a mapping; an absent value has none. -/
def entries? : Node → Option (List (Node × Node))
  | .mapping entries => some entries
  | .scalar .plain _ [] => some []
  | _ => none

/-- The items of a sequence; an absent value has none. -/
def items? : Node → Option (List Node)
  | .sequence items => some items
  | .scalar .plain _ [] => some []
  | _ => none

mutual

/-- The number of marks in a part: one for a scalar or a reference, and for a
collection one at either end besides those inside. -/
def marks : Node → Nat
  | .scalar _ _ _ => 1
  | .reference _ => 1
  | .sequence items => 2 + itemMarks items
  | .mapping entries => 2 + entryMarks entries

/-- The number of marks in the items of a sequence. -/
def itemMarks : List Node → Nat
  | [] => 0
  | item :: rest => marks item + itemMarks rest

/-- The number of marks in the entries of a mapping. -/
def entryMarks : List (Node × Node) → Nat
  | [] => 0
  | (key, value) :: rest => marks key + marks value + entryMarks rest

end

end Node

/-- Decoding keeps the number of references that may still be followed. -/
abbrev Decoding := StateT Nat Option

namespace Document

/-- The part that a number stands for. -/
def anchored? (document : Document) (number : Nat) : Option Node :=
  let latest := document.anchored.foldl (fun best entry =>
    if entry.number = number ∧ best.all (·.start < entry.start) then some entry else best) none
  latest.map (·.node)

/-- The part itself, or the one that it refers to. -/
def resolve (document : Document) : Node → Decoding Node
  | .reference number => do
      match ← get with
      | 0 => failure
      | left + 1 =>
          set left
          document.anchored? number
  | node => pure node

/-- Decodes a part, or the one that it refers to. -/
def decode {α : Type} (document : Document) (read : Node → Option α) (node : Node) :
    Decoding α := do
  let node ← document.resolve node
  read node

/-- Decodes a document from its root. -/
def decodeRoot? {α : Type} (document : Document) (read : Node → Decoding α) : Option α :=
  (read document.root).run' (100 * document.root.marks)

end Document

end Ia32.Yaml

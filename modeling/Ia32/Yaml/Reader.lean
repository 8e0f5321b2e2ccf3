import Ia32.Yaml.Layout

/-!
# Reading configuration documents

A text holds at most one document. Its tokens are read into a tree by one
function for each kind of collection; what is left out between two tokens is an
absent value. An anchored part gets a number when it starts, so that a reference
inside it can already name it.
-/

namespace Ia32.Yaml

/-- What the directives in front of a document say. -/
structure Directives where
  hasVersion : Bool := false
  /-- Handles with the texts that they stand for. -/
  handles : List (List Char × List Char) := []

namespace Directives

/-- The directives at the start of a list of tokens, and the tokens behind them. No
version and no handle may be given twice. -/
def read? (d : Directives) : List Token → Option (Directives × List Token)
  | .version major minor :: rest =>
      if !d.hasVersion && major = 1 && (minor = 1 || minor = 2) then
        read? { d with hasVersion := true } rest
      else none
  | .handle name uri :: rest =>
      if (d.handles.lookup name).isNone then
        read? { d with handles := (name, uri) :: d.handles } rest
      else none
  | tokens => some (d, tokens)

/-- Whether there are none. -/
def isEmpty (d : Directives) : Bool :=
  !d.hasVersion && d.handles.isEmpty

/-- The handles that need no directive. -/
def standardHandles : List (List Char × List Char) :=
  [(['!'], ['!']), (['!', '!'], standardTag "")]

/-- The tag that a handle and a suffix stand for. -/
def tag? (d : Directives) (handle suffix : List Char) : Option (List Char) :=
  if handle.isEmpty then some suffix
  else ((d.handles ++ standardHandles).lookup handle).map (· ++ suffix)

end Directives

/-- The tokens that are left of a document, and its anchors so far. -/
structure Progress where
  tokens : List Token
  /-- The number that each name of an anchor has now. -/
  names : List (List Char × Nat) := []
  /-- How many anchored parts have started. -/
  starts : Nat := 0
  anchored : List Anchored := []

/-- Reading takes tokens from the front. -/
abbrev Reading := StateT Progress Option

namespace Reading

/-- The next token. -/
def peek : Reading (Option Token) := do
  return (← get).tokens.head?

/-- Whether one of the given tokens is next. -/
def isNext (tokens : List Token) : Reading Bool := do
  return (← peek).any (tokens.contains ·)

/-- Passes the next token. -/
def advance : Reading Unit :=
  modify fun p => { p with tokens := p.tokens.tail }

/-- Passes the given token, which must be next. -/
def expect (token : Token) : Reading Unit := do
  if ← isNext [token] then advance else failure

/-- A part, which is absent if one of the given tokens is next. -/
def orAbsent (stops : List Token) (part : Reading Node) : Reading Node := do
  if ← isNext stops then return .absent else part

/-- The value behind a key. It is absent if no colon is next, or if one of the
given tokens follows the colon. -/
def value (stops : List Token) (part : Reading Node) : Reading Node := do
  if ← isNext [.value] then
    advance
    orAbsent stops part
  else return .absent

/-- Passes the comma in front of an item in brackets. The first item has none, and
the closing bracket needs none. -/
def separator (isFirst : Bool) (close : Token) : Reading Unit := do
  if isFirst || (← isNext [close]) then return
  else expect .flowEntry

/-- The name of the anchor and the tag of the next part, in either order. -/
def properties (d : Directives) : Reading (Option (List Char) × Option (List Char)) := do
  let p ← get
  match p.tokens with
  | .anchor name :: .tag handle suffix :: rest | .tag handle suffix :: .anchor name :: rest =>
      set { p with tokens := rest }
      return (some name, some (← d.tag? handle suffix))
  | .anchor name :: rest =>
      set { p with tokens := rest }
      return (some name, none)
  | .tag handle suffix :: rest =>
      set { p with tokens := rest }
      return (none, some (← d.tag? handle suffix))
  | _ => return (none, none)

/-- Gives a number to the anchored part that starts here: the number of names
given so far. The result also holds how many parts started before. -/
def startAnchor (name : List Char) : Reading (Nat × Nat) := do
  let p ← get
  let number := p.names.length
  set { p with
    names := (name, number) :: p.names.filter (·.1 != name)
    starts := p.starts + 1 }
  return (number, p.starts)

/-- Records the anchored part that ends here. -/
def endAnchor (node : Node) : Option (Nat × Nat) → Reading Unit
  | some (number, start) =>
      modify fun p => { p with anchored := ⟨number, start, node⟩ :: p.anchored }
  | none => return

/-- A reference to an anchor that has been given. -/
def reference (name : List Char) : Reading Node := do
  advance
  return .reference (← (← get).names.lookup name)

mutual

/-- The next part, with its properties. Where `inBlock` holds it may be a block,
and where `indentless` holds an item may stand without one around it. -/
def part (d : Directives) : Nat → Bool → Bool → Reading Node
  | 0, _, _ => failure
  | fuel + 1, inBlock, indentless => do
      match ← peek with
      | some (.reference name) => reference name
      | _ =>
          let (name, tag) ← properties d
          let anchor ← name.mapM startAnchor
          let node ← content d fuel inBlock indentless (name.isSome || tag.isSome) tag
          endAnchor node anchor
          return node

/-- The next part behind its properties. With properties it may be absent. -/
def content (d : Directives) :
    Nat → Bool → Bool → Bool → Option (List Char) → Reading Node
  | 0, _, _, _, _ => failure
  | fuel + 1, inBlock, indentless, hasProperties, tag => do
      match ← peek, inBlock, indentless with
      | some .blockEntry, _, true => return .sequence (← indentlessItems d fuel)
      | some (.scalar style text), _, _ =>
          advance
          return .scalar style (tag.filter (· ≠ ['!'])) text
      | some .flowSequenceStart, _, _ =>
          advance
          return .sequence (← flowItems d fuel true)
      | some .flowMappingStart, _, _ =>
          advance
          return .mapping (← flowEntries d fuel true)
      | some .blockSequenceStart, true, _ =>
          advance
          return .sequence (← blockItems d fuel)
      | some .blockMappingStart, true, _ =>
          advance
          return .mapping (← blockEntries d fuel)
      | _, _, _ => if hasProperties then return .scalar .plain tag [] else failure

/-- The items of a sequence in a block of its own. -/
def blockItems (d : Directives) : Nat → Reading (List Node)
  | 0 => failure
  | fuel + 1 => do
      match ← peek with
      | some .blockEntry =>
          advance
          let item ← orAbsent [.blockEntry, .blockEnd] (part d fuel true false)
          return item :: (← blockItems d fuel)
      | some .blockEnd =>
          advance
          return []
      | _ => failure

/-- The items of a sequence that stands no further right than the key in front. -/
def indentlessItems (d : Directives) : Nat → Reading (List Node)
  | 0 => failure
  | fuel + 1 => do
      if ← isNext [.blockEntry] then
        advance
        let item ← orAbsent [.blockEntry, .key, .value, .blockEnd] (part d fuel true false)
        return item :: (← indentlessItems d fuel)
      else return []

/-- The entries of a mapping in a block. -/
def blockEntries (d : Directives) : Nat → Reading (List (Node × Node))
  | 0 => failure
  | fuel + 1 => do
      match ← peek with
      | some .key =>
          advance
          let stops := [Token.key, .value, .blockEnd]
          let key ← orAbsent stops (part d fuel true true)
          let value ← value stops (part d fuel true true)
          return (key, value) :: (← blockEntries d fuel)
      | some .blockEnd =>
          advance
          return []
      | _ => failure

/-- The items of a sequence in brackets. An item that starts as a key is a mapping
of one entry. -/
def flowItems (d : Directives) : Nat → Bool → Reading (List Node)
  | 0, _ => failure
  | fuel + 1, isFirst => do
      separator isFirst .flowSequenceEnd
      match ← peek with
      | some .flowSequenceEnd =>
          advance
          return []
      | some .key =>
          advance
          let entry ← flowPair d fuel
          return .mapping [entry] :: (← flowItems d fuel false)
      | _ =>
          let item ← part d fuel false false
          return item :: (← flowItems d fuel false)

/-- The only entry of a mapping that is an item. An absent key takes the token
that shows it to be absent with it. -/
def flowPair (d : Directives) : Nat → Reading (Node × Node)
  | 0 => failure
  | fuel + 1 => do
      let isAbsent ← isNext [.value, .flowEntry, .flowSequenceEnd]
      let key ← if isAbsent then do advance; pure .absent else part d fuel false false
      return (key, ← value [.flowEntry, .flowSequenceEnd] (part d fuel false false))

/-- The entries of a mapping in brackets. -/
def flowEntries (d : Directives) : Nat → Bool → Reading (List (Node × Node))
  | 0, _ => failure
  | fuel + 1, isFirst => do
      separator isFirst .flowMappingEnd
      match ← peek with
      | some .flowMappingEnd =>
          advance
          return []
      | some .key =>
          advance
          let key ← orAbsent [.value, .flowEntry, .flowMappingEnd] (part d fuel false false)
          let value ← value [.flowEntry, .flowMappingEnd] (part d fuel false false)
          return (key, value) :: (← flowEntries d fuel false)
      | _ =>
          let key ← part d fuel false false
          return (key, .absent) :: (← flowEntries d fuel false)

end

end Reading

namespace Document

/-- The document that follows its directives and perhaps its mark. Only with a
mark can all of it be absent. Nothing but marks of its end may come behind it. -/
def ofContent? (d : Directives) (isMarked : Bool) (tokens : List Token) : Option Document := do
  let part := Reading.part d (3 * tokens.length + 3) true false
  let root := if isMarked && tokens.isEmpty then pure .absent
    else if isMarked then Reading.orAbsent [.documentEnd] part
    else part
  let (root, p) ← root.run { tokens }
  if p.tokens.all (· == .documentEnd) then some ⟨root, p.anchored⟩ else none

/-- The only document among tokens; without a token its root is absent. -/
def ofTokens? (tokens : List Token) : Option Document :=
  if tokens.isEmpty then some { root := .absent }
  else
    match Directives.read? {} tokens with
    | some (d, .documentStart :: rest) => ofContent? d true rest
    | some (d, rest) => if d.isEmpty then ofContent? d false rest else none
    | none => none

end Document

/-- Reads a text with at most one document. -/
def read? (text : String) : Option Document := do
  Document.ofTokens? (← Token.ofText? text.toList)

end Ia32.Yaml

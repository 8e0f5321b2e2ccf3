import Ia32.Yaml.Property

/-!
# From layout to tokens

A text is turned into tokens from left to right. A block opens where a key or an
item stands further right than the block around it, and closes in front of
content that stands further left. A key needs no mark of its own, only the colon
behind it, so the place where one may have started is remembered; when the colon
comes, the token for the key goes to that place. Such a key lies on one line and
is at most 1024 bytes long.
-/

namespace Ia32.Yaml

/-- A place where a key without a mark may have started. It is required where
nothing but a key can stand. -/
structure KeyStart where
  isRequired : Bool
  /-- The number of tokens in front of it. -/
  number : Nat
  offset : Nat
  line : Nat
  column : Nat

namespace KeyStart

/-- The most bytes between the start of a key and its colon. -/
def maxLength : Nat := 1024

/-- Whether a key that starts here cannot end at a place any more. -/
def isPast (key : KeyStart) (s : Source) : Bool :=
  key.line < s.line || key.offset + maxLength < s.offset

/-- The same start, if a key from it can still end at the place. A required key
may not be given up. -/
def update? (s : Source) : Option KeyStart → Option (Option KeyStart)
  | none => some none
  | some key =>
      if !key.isPast s then some (some key)
      else if key.isRequired then none
      else some none

end KeyStart

/-- A text in the course of being turned into tokens. -/
structure Layout where
  source : Source
  /-- The tokens so far, the latest first. -/
  tokens : List Token := []
  count : Nat := 0
  /-- The columns behind the starts of the open blocks, the innermost first. -/
  blocks : List Nat := []
  /-- Whether a key without a mark may start here. -/
  keyAllowed : Bool := true
  /-- Where a key may have started since the innermost bracket. -/
  key : Option KeyStart := none
  /-- The same for the text in front of each open bracket. -/
  outer : List (Option KeyStart) := []

namespace Layout

/-- Whether brackets are open. -/
def isFlow (l : Layout) : Bool :=
  !l.outer.isEmpty

/-- The first column that lies inside the innermost block. -/
def floor (l : Layout) : Nat :=
  l.blocks.headD 0

/-- The layout of a text. A byte order mark in front of it is no content, but takes
up the first column. -/
def start (text : List Char) : Layout :=
  let s : Source := { rest := text }
  { source := if text.head? == some '\uFEFF' then s.advance 1 else s }

/-- Puts a token behind the given number of tokens. -/
def insertAt (l : Layout) (number : Nat) (token : Token) : Layout :=
  let recent := l.count - number
  { l with
    tokens := l.tokens.take recent ++ token :: l.tokens.drop recent
    count := l.count + 1 }

/-- Adds a token that ends at a place. -/
def push (l : Layout) (token : Token) (after : Source) : Layout :=
  { l with tokens := token :: l.tokens, count := l.count + 1, source := after }

/-- Opens a block at a column, with its token behind the given number of tokens,
unless the innermost block reaches that far. -/
def openBlock (l : Layout) (column number : Nat) (token : Token) : Layout :=
  if !l.isFlow && l.floor ≤ column then
    { l.insertAt number token with blocks := (column + 1) :: l.blocks }
  else l

/-- Closes the blocks that content behind the given floor does not belong to. -/
def closeBlocks (l : Layout) (floor : Nat) : Layout :=
  if l.isFlow then l
  else
    let closing := l.blocks.takeWhile (floor < ·)
    { l with
      tokens := closing.map (fun _ => Token.blockEnd) ++ l.tokens
      count := l.count + closing.length
      blocks := l.blocks.drop closing.length }

/-- Gives up the key that cannot end here any more. A key in front of an open
bracket is looked at when the bracket has closed. -/
def updateKey? (l : Layout) : Option Layout := do
  return { l with key := ← KeyStart.update? l.source l.key }

/-- Gives up the key that may have started. -/
def dropKey? (l : Layout) : Option Layout :=
  if l.key.any (·.isRequired) then none else some { l with key := none }

/-- Remembers that a key may start here, if it may. -/
def markKey? (l : Layout) : Option Layout :=
  if l.keyAllowed then do
    let l ← l.dropKey?
    let s := l.source
    let isRequired := !l.isFlow && l.floor == s.column + 1
    return { l with key := some ⟨isRequired, l.count, s.offset, s.line, s.column⟩ }
  else some l

/-- Passes over blanks, comments and line breaks. In a block a key may start on
the new line, and then no tab may stand in front of it. -/
def skipToContent : Nat → Layout → Layout
  | 0, l => l
  | fuel + 1, l =>
      let tabs := l.isFlow || !l.keyAllowed
      let s := l.source.skip fun c => c == ' ' || (tabs && c == '\t')
      let s := if s.rest.head? == some '#' then s.skip (!isBreak ·) else s
      match s.break? with
      | some (_, s) =>
          skipToContent fuel { l with source := s, keyAllowed := l.keyAllowed || !l.isFlow }
      | none => { l with source := s }

/-- Ends all blocks, in front of what stands between documents. -/
def leaveDocument? (l : Layout) : Option Layout := do
  let l ← (l.closeBlocks 0).dropKey?
  return { l with keyAllowed := false }

/-- A mark at the start or the end of a document. -/
def mark? (l : Layout) (token : Token) : Option Layout := do
  let l ← l.leaveDocument?
  return l.push token (l.source.advance 3)

/-- A line with a directive. -/
def directive? (fuel : Nat) (l : Layout) : Option Layout := do
  let l ← l.leaveDocument?
  let (token, s) ← Yaml.directive? fuel l.source
  return l.push token s

/-- An opening bracket. -/
def openBracket? (l : Layout) (token : Token) : Option Layout := do
  let l ← l.markKey?
  let l := { l with key := none, outer := l.key :: l.outer, keyAllowed := true }
  return l.push token (l.source.advance 1)

/-- A closing bracket. -/
def closeBracket? (l : Layout) (token : Token) : Option Layout := do
  let l ← l.dropKey?
  let l := match l.outer with
    | key :: outer => { l with key, outer, keyAllowed := false }
    | [] => { l with keyAllowed := false }
  return l.push token (l.source.advance 1)

/-- A comma inside brackets. -/
def flowEntry? (l : Layout) : Option Layout := do
  let l ← l.dropKey?
  return { l with keyAllowed := true }.push .flowEntry (l.source.advance 1)

/-- Opens a block for a mark that stands here. In a block such a mark can stand
only where a key can. -/
def openBlockHere? (l : Layout) (token : Token) : Option Layout :=
  if l.isFlow then some l
  else if l.keyAllowed then some (l.openBlock l.source.column l.count token)
  else none

/-- The mark of an item. -/
def blockEntry? (l : Layout) : Option Layout := do
  let l ← (← l.openBlockHere? .blockSequenceStart).dropKey?
  return { l with keyAllowed := true }.push .blockEntry (l.source.advance 1)

/-- The mark of a key. -/
def key? (l : Layout) : Option Layout := do
  let l ← (← l.openBlockHere? .blockMappingStart).dropKey?
  return { l with keyAllowed := !l.isFlow }.push .key (l.source.advance 1)

/-- The colon in front of a value. -/
def value? (l : Layout) : Option Layout := do
  let l ← match l.key with
    | some key =>
        let l := l.insertAt key.number .key
        let l := l.openBlock key.column key.number .blockMappingStart
        some { l with key := none, keyAllowed := false }
    | none => do
        let l ← l.openBlockHere? .blockMappingStart
        some { l with keyAllowed := !l.isFlow }
  return l.push .value (l.source.advance 1)

/-- Starts a token that can be a key or the start of one. -/
def startContent? (l : Layout) : Option Layout := do
  let l ← l.markKey?
  return { l with keyAllowed := false }

/-- An anchor, or a reference to one. -/
def anchor? (l : Layout) (token : List Char → Token) : Option Layout := do
  let l ← l.startContent?
  let (name, s) ← anchorName? (l.source.advance 1)
  return l.push (token name) s

/-- A tag. -/
def tag? (fuel : Nat) (l : Layout) : Option Layout := do
  let l ← l.startContent?
  let (token, s) ← Yaml.tag? l.isFlow fuel l.source
  return l.push token s

/-- A block scalar. It is no key, and a key may start behind it. -/
def blockScalar? (fuel : Nat) (l : Layout) (style : Style) : Option Layout := do
  let l ← l.dropKey?
  let (text, s) ← Yaml.block? (style == .folded) l.floor fuel l.source
  return { l with keyAllowed := true }.push (.scalar style text) s

/-- A quoted scalar. -/
def quoted? (fuel : Nat) (l : Layout) (quote : Quote) : Option Layout := do
  let l ← l.startContent?
  let (text, s) ← Yaml.quoted? quote fuel l.source
  let style := match quote with
    | .single => Style.singleQuoted
    | .double => Style.doubleQuoted
  return l.push (.scalar style text) s

/-- A plain scalar. A key may start behind it on a new line. -/
def plain? (fuel : Nat) (l : Layout) : Option Layout := do
  let l ← l.startContent?
  let scalar ← Yaml.plain? l.isFlow l.floor fuel l.source
  return { l with keyAllowed := scalar.isBroken }.push (.scalar .plain scalar.text) scalar.after

/-- The characters that no plain scalar starts with. -/
def isIndicator (c : Char) : Bool :=
  isFlowIndicator c || "#&*!|>'\"%@`".toList.contains c

/-- The token that starts here. -/
def next? (fuel : Nat) (l : Layout) : Option Layout :=
  let s := l.source
  if s.column == 0 && s.rest.head? == some '%' then l.directive? fuel
  else if s.startsWithMark '-' then l.mark? .documentStart
  else if s.startsWithMark '.' then l.mark? .documentEnd
  else
    match s.rest with
    | '[' :: _ => l.openBracket? .flowSequenceStart
    | '\x7b' :: _ => l.openBracket? .flowMappingStart
    | ']' :: _ => l.closeBracket? .flowSequenceEnd
    | '\x7d' :: _ => l.closeBracket? .flowMappingEnd
    | ',' :: _ => l.flowEntry?
    | '-' :: rest => if endsWord rest then l.blockEntry? else l.plain? fuel
    | '?' :: rest => if l.isFlow || endsWord rest then l.key? else l.plain? fuel
    | ':' :: rest => if l.isFlow || endsWord rest then l.value? else l.plain? fuel
    | '*' :: _ => l.anchor? .reference
    | '&' :: _ => l.anchor? .anchor
    | '!' :: _ => l.tag? fuel
    | '|' :: _ => if l.isFlow then none else l.blockScalar? fuel .literal
    | '>' :: _ => if l.isFlow then none else l.blockScalar? fuel .folded
    | '\'' :: _ => l.quoted? fuel .single
    | '"' :: _ => l.quoted? fuel .double
    | rest => if endsWord rest || rest.head?.any isIndicator then none else l.plain? fuel

/-- Moves to the next content, and closes the blocks that end in front of it. -/
def toContent? (fuel : Nat) (l : Layout) : Option Layout := do
  let l ← (l.skipToContent fuel).updateKey?
  return l.closeBlocks (l.source.column + 1)

/-- The tokens of a text, of which some have been read. -/
def tokens? : Nat → Layout → Option (List Token)
  | 0, _ => none
  | fuel + 1, l => do
      let l ← l.toContent? fuel
      if l.source.rest.isEmpty then return (← l.leaveDocument?).tokens.reverse
      else tokens? fuel (← l.next? fuel)

end Layout

/-- The tokens of a text, unless it is ill-formed. -/
def Token.ofText? (text : List Char) : Option (List Token) :=
  if text.all isAllowed then (Layout.start text).tokens? (2 * text.length + 8) else none

end Ia32.Yaml

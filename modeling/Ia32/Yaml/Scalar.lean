import Ia32.Text.Numeral
import Ia32.Yaml.Source

/-!
# Texts of scalars

Plain and quoted scalars are words with gaps between them; a gap that holds one
line break reads as a space. A block scalar is a run of lines with a common
indentation. The numbers that bound the loops are bounds on the characters left.
-/

namespace Ia32.Yaml

/-- What separates two words of a scalar: blanks on one line, or line breaks. The
first break is missing if it was escaped. -/
inductive Gap where
  | blanks (text : List Char)
  | breaks (first : Option Char) (others : List Char)

namespace Gap

/-- No gap. -/
def empty : Gap :=
  .blanks []

/-- Whether a line ends in a gap. -/
def isBroken : Gap → Bool
  | .blanks _ => false
  | .breaks _ _ => true

/-- How a gap reads: a single line feed as a space, and in front of further
breaks as nothing. -/
def text : Gap → List Char
  | .blanks text => text
  | .breaks (some '\n') [] => [' ']
  | .breaks (some '\n') others => others
  | .breaks first others => first.toList ++ others

/-- Further breaks of a gap and the blanks around them. No tab may stand in front
of the column that content starts from. -/
def others? (floor : Nat) : Nat → List Char → Source → Option (List Char × Source)
  | 0, _, _ => none
  | fuel + 1, seen, s =>
      let (run, s) := s.span isBlank
      if (run.take floor).contains '\t' then none
      else
        match s.break? with
        | some (c, s) => others? floor fuel (c :: seen) s
        | none => some (seen.reverse, s)

/-- The gap that starts here. -/
def read? (floor fuel : Nat) (s : Source) : Option (Gap × Source) :=
  let (run, s) := s.span isBlank
  match s.break? with
  | none => some (.blanks run, s)
  | some (first, s) => do
      let (others, s) ← others? floor fuel [] s
      return (.breaks (some first) others, s)

/-- The gap behind an escaped line break. -/
def escaped? (fuel : Nat) (s : Source) : Option (Gap × Source) := do
  let (others, s) ← others? 0 fuel [] s.skipBreak
  return (.breaks none others, s)

end Gap

/-! ## Plain scalars -/

/-- Brackets and commas have a meaning inside brackets. -/
def isFlowIndicator (c : Char) : Bool :=
  c == ',' || c == '[' || c == ']' || c == '\x7b' || c == '\x7d'

/-- Whether a word of a plain scalar stops in front of these characters. -/
def stopsPlain (flow : Bool) : List Char → Bool
  | [] => true
  | c :: rest =>
      isBlank c || isBreak c || (c == ':' && endsWord rest) || (flow && isFlowIndicator c)

/-- Whether a colon inside brackets has no room to be followed by a value. -/
def hasCrampedColon (flow : Bool) : List Char → Bool
  | ':' :: c :: _ => flow && (c == '?' || isFlowIndicator c)
  | _ => false

/-- A word of a plain scalar. -/
def plainWord? (flow : Bool) : List Char → Option (List Char)
  | [] => some []
  | c :: rest =>
      if hasCrampedColon flow (c :: rest) then none
      else if stopsPlain flow (c :: rest) then some []
      else (plainWord? flow rest).map (c :: ·)

/-- A scalar that has been read: its text, whether a line ended behind its last
word, and the place behind it. -/
structure PlainScalar where
  text : List Char
  isBroken : Bool
  after : Source

/-- The rest of a plain scalar, behind pieces of text in reverse and a gap. It
stops at a mark of the document, at a comment, and in a block also on a line
that is not indented far enough. -/
def plainFrom? (flow : Bool) (floor : Nat) :
    Nat → List (List Char) → Gap → Source → Option PlainScalar
  | 0, _, _, _ => none
  | fuel + 1, pieces, gap, s => do
      let stop := fun (pieces : List (List Char)) (gap : Gap) (s : Source) =>
        PlainScalar.mk pieces.reverse.flatten gap.isBroken s
      if s.atMark || s.rest.head? == some '#' then return stop pieces gap s
      let word ← plainWord? flow s.rest
      let s := s.advance word.length
      let (pieces, gap) :=
        if word.isEmpty then (pieces, gap) else (word :: gap.text :: pieces, Gap.empty)
      if !endsWord s.rest || s.rest.isEmpty then return stop pieces gap s
      let (gap, s) ← Gap.read? floor fuel s
      if !flow && s.column < floor then return stop pieces gap s
      plainFrom? flow floor fuel pieces gap s

/-- A plain scalar. -/
def plain? (flow : Bool) (floor fuel : Nat) (s : Source) : Option PlainScalar :=
  plainFrom? flow floor fuel [] Gap.empty s

/-! ## Quoted scalars -/

/-- The two kinds of quotation marks. -/
inductive Quote where
  | single
  | double
  deriving DecidableEq, Repr

/-- The quotation mark. -/
def Quote.mark : Quote → Char
  | .single => '\''
  | .double => '"'

/-- Characters named by a letter behind a backslash. -/
def namedEscape? : Char → Option Nat
  | '0' => some 0
  | 'a' => some 7
  | 'b' => some 8
  | 't' => some 9
  | '\t' => some 9
  | 'n' => some 10
  | 'v' => some 11
  | 'f' => some 12
  | 'r' => some 13
  | 'e' => some 27
  | ' ' => some 32
  | '"' => some 34
  | '/' => some 47
  | '\\' => some 92
  | 'N' => some 0x85
  | '_' => some 0xA0
  | 'L' => some 0x2028
  | 'P' => some 0x2029
  | _ => none

/-- Number of digits behind a letter that announces a character number. -/
def escapeDigits? : Char → Option Nat
  | 'x' => some 2
  | 'u' => some 4
  | 'U' => some 8
  | _ => none

/-- The character that an escape stands for, and the length of the escape behind
its backslash. -/
def escape? : List Char → Option (Char × Nat)
  | [] => none
  | c :: rest =>
      match namedEscape? c with
      | some n => some (Char.ofNat n, 1)
      | none => do
          let count ← escapeDigits? c
          let digits := rest.take count
          let n ← Text.natural? 16 digits
          if digits.length = count ∧ n.isValidChar then some (Char.ofNat n, count + 1) else none

/-- What comes next inside quotes: a character of the text, with the number of
characters that it takes, an escaped line break, or the end of a word. -/
inductive QuotedPart where
  | char (c : Char) (length : Nat)
  | escapedBreak
  | wordEnd

/-- What comes next inside quotes, unless it is an escape without meaning. -/
def quotedPart? (quote : Quote) (rest : List Char) : Option QuotedPart :=
  match quote, rest with
  | _, [] => some .wordEnd
  | .single, '\'' :: '\'' :: _ => some (.char '\'' 2)
  | .double, '\\' :: rest =>
      if !rest.isEmpty && endsLine rest then some .escapedBreak
      else (escape? rest).map fun (c, length) => .char c (length + 1)
  | quote, c :: _ =>
      if c == quote.mark || isBlank c || isBreak c then some .wordEnd else some (.char c 1)

/-- A word inside quotes, whether an escaped line break ends it, and the place
behind it. -/
def quotedWord? (quote : Quote) : Nat → List Char → Source → Option (List Char × Bool × Source)
  | 0, _, _ => none
  | fuel + 1, seen, s =>
      match quotedPart? quote s.rest with
      | some (.char c length) => quotedWord? quote fuel (c :: seen) (s.advance length)
      | some .escapedBreak => some (seen.reverse, true, s.advance 1)
      | some .wordEnd => some (seen.reverse, false, s)
      | none => none

/-- The rest of a quoted scalar, behind pieces of text in reverse. It may not
hold a mark of the document. -/
def quotedFrom? (quote : Quote) : Nat → List (List Char) → Source → Option (List Char × Source)
  | 0, _, _ => none
  | fuel + 1, pieces, s => do
      if s.atMark || s.rest.isEmpty then none
      else
        let (word, isEscaped, s) ← quotedWord? quote (fuel + 1) [] s
        if !isEscaped && s.rest.head? == some quote.mark then
          return ((word :: pieces).reverse.flatten, s.advance 1)
        else
          let (gap, s) ← if isEscaped then Gap.escaped? fuel s else Gap.read? 0 fuel s
          quotedFrom? quote fuel (gap.text :: word :: pieces) s

/-- A quoted scalar, from its opening mark. -/
def quoted? (quote : Quote) (fuel : Nat) (s : Source) : Option (List Char × Source) :=
  quotedFrom? quote fuel [] (s.advance 1)

/-! ## Block scalars -/

/-- What happens to the line breaks at the end of a block scalar: all go, one
stays, or all stay. -/
inductive Chomping where
  | strip
  | clip
  | keep
  deriving DecidableEq, Repr

/-- The sign of chomping that may stand here. -/
def Chomping.read (s : Source) : Option Chomping × Source :=
  match s.rest with
  | '-' :: _ => (some .strip, s.advance 1)
  | '+' :: _ => (some .keep, s.advance 1)
  | _ => (none, s)

/-- The head of a block scalar: its chomping, and by how much its lines are
indented further, if this is given. -/
structure BlockHead where
  chomping : Chomping
  increment : Option Nat

namespace BlockHead

/-- The digit that may stand here; it is not zero. -/
def readIncrement? (s : Source) : Option (Option Nat × Source) :=
  match s.rest.head?.bind (Text.digit? 10) with
  | none => some (none, s)
  | some 0 => none
  | some n => some (some n, s.advance 1)

/-- The head behind the mark of a block scalar. Its two parts come in either
order, and either may be missing. -/
def read? (s : Source) : Option (BlockHead × Source) := do
  let (chomping, s) := Chomping.read s
  let (increment, s) ← readIncrement? s
  let (chomping, s) := if chomping.isNone then Chomping.read s else (chomping, s)
  return (⟨chomping.getD .clip, increment⟩, s)

end BlockHead

/-- The lines of a block scalar in front of its next line with content: their
breaks, and the farthest column that they reach. As long as the indentation is
not known all spaces belong to it; a tab does not. -/
def blankLines? (indent : Option Nat) :
    Nat → Nat → List Char → Source → Option (List Char × Nat × Source)
  | 0, _, _, _ => none
  | fuel + 1, widest, seen, s =>
      let most := match indent with
        | none => s.rest
        | some n => s.rest.take (n - s.column)
      let s := s.advance (most.takeWhile (· == ' ')).length
      let widest := max widest s.column
      if indent.all (s.column < ·) && s.rest.head? == some '\t' then none
      else
        match s.break? with
        | some (c, s) => blankLines? indent fuel widest (c :: seen) s
        | none => some (seen.reverse, widest, s)

/-- A block scalar in the course of reading: pieces of its text in reverse, the
break behind its last line and the breaks of the blank lines that follow, and
whether the last line started with a blank. -/
structure BlockText where
  pieces : List (List Char) := []
  lead : Option Char := none
  breaks : List Char
  wasBlank : Bool := false

namespace BlockText

/-- How the break behind the last line reads in front of a line with content. A
folded scalar joins two lines that both start without a blank. -/
def joint (t : BlockText) (folded startsBlank : Bool) : List Char :=
  if folded && t.lead == some '\n' && !t.wasBlank && !startsBlank then
    if t.breaks.isEmpty then [' '] else []
  else t.lead.toList

/-- Reads lines as far as they have the indentation of the scalar. -/
def extend? (folded : Bool) (indent : Nat) :
    Nat → BlockText → Source → Option (BlockText × Source)
  | 0, _, _ => none
  | fuel + 1, t, s =>
      if s.column != indent || s.rest.isEmpty then some (t, s)
      else do
        let startsBlank := s.rest.head?.any isBlank
        let (line, s) := s.span (!isBreak ·)
        let lead := s.break?.map (·.1)
        let (breaks, _, s) ← blankLines? (some indent) fuel 0 [] s.skipBreak
        let pieces := line :: t.breaks :: t.joint folded startsBlank :: t.pieces
        extend? folded indent fuel ⟨pieces, lead, breaks, startsBlank⟩ s

/-- The text of a scalar that ends here. -/
def finish (t : BlockText) (chomping : Chomping) : List Char :=
  let trailing := match chomping with
    | .strip => []
    | .clip => t.lead.toList
    | .keep => t.lead.toList ++ t.breaks
  (trailing :: t.pieces).reverse.flatten

end BlockText

/-- A block scalar, from its mark. Without a given increment its indentation is
that of the first line with content, but at least that of the block. -/
def block? (folded : Bool) (floor fuel : Nat) (s : Source) : Option (List Char × Source) := do
  let (head, s) ← BlockHead.read? (s.advance 1)
  let s ← s.lineEnd?
  let given := head.increment.map (floor - 1 + ·)
  let (breaks, widest, s) ← blankLines? given fuel 0 [] s.skipBreak
  let indent := given.getD (max (max widest floor) 1)
  let (t, s) ← BlockText.extend? folded indent fuel ⟨[], none, breaks, false⟩ s
  return (t.finish head.chomping, s)

end Ia32.Yaml

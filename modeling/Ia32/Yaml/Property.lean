import Ia32.Text.Numeral
import Ia32.Yaml.Token
import Ia32.Yaml.Scalar

/-!
# Anchors, tags and directives

Names of anchors and handles of tags are words of letters, digits, underscores
and hyphens. The rest of a tag may hold octets written with a percent sign; an
octet counts here as the character with its number, and a zero octet ends the
text.
-/

namespace Ia32.Yaml

/-- The characters of names. -/
def isNameChar (c : Char) : Bool :=
  c.isAlphanum || c == '_' || c == '-'

/-- The name of an anchor, behind its mark. -/
def anchorName? (s : Source) : Option (List Char × Source) :=
  let (name, s) := s.span isNameChar
  if name.isEmpty then none
  else if endsWord s.rest || s.rest.head?.any ("?:,]\x7d%@`".toList.contains ·) then some (name, s)
  else none

/-! ## Texts of tags -/

/-- The characters of a tag. Brackets and commas only stand where a tag cannot
be part of a collection in brackets. -/
def isTagChar (free : Bool) (c : Char) : Bool :=
  isNameChar c || ";/?:@&=+$.!~*'()".toList.contains c ||
    (free && (c == ',' || c == '[' || c == ']'))

/-- An octet written as a percent sign and two digits. -/
def octet? : List Char → Option Nat
  | '%' :: a :: b :: _ => Text.natural? 16 [a, b]
  | _ => none

/-- The number of octets that follow the first one of a character. -/
def octetsBehind? (octet : Nat) : Option Nat :=
  if octet < 0x80 then some 0
  else if octet < 0xC0 then none
  else if octet < 0xE0 then some 1
  else if octet < 0xF0 then some 2
  else if octet < 0xF8 then some 3
  else none

/-- The octets missing after one more, if that is allowed here. -/
def missingAfter? (missing octet : Nat) : Option Nat :=
  match missing with
  | 0 => octetsBehind? octet
  | missing + 1 => if 0x80 ≤ octet ∧ octet < 0xC0 then some missing else none

/-- The rest of a tag's text, behind characters in reverse and with a number of
octets missing. -/
def tagTextFrom? (free : Bool) : Nat → Nat → List Char → Source → Option (List Char × Source)
  | 0, _, _, _ => none
  | fuel + 1, missing, seen, s =>
      if s.rest.head? == some '%' then do
        let octet ← octet? s.rest
        let missing ← missingAfter? missing octet
        tagTextFrom? free fuel missing (Char.ofNat octet :: seen) (s.advance 3)
      else if missing ≠ 0 then none
      else
        match s.rest with
        | c :: _ =>
            if isTagChar free c then tagTextFrom? free fuel 0 (c :: seen) (s.advance 1)
            else some (seen.reverse, s)
        | [] => some (seen.reverse, s)

/-- The text of a tag that starts with the given characters. It is not empty. -/
def tagText? (free : Bool) (fuel : Nat) (start : List Char) (s : Source) :
    Option (List Char × Source) := do
  let (text, s) ← tagTextFrom? free fuel 0 start.reverse s
  if text.isEmpty then none else return (text.takeWhile (· ≠ Char.ofNat 0), s)

/-- The handle at the start of a tag: an exclamation mark, a name, and perhaps
another mark. -/
def handle? (s : Source) : Option (List Char × Source) :=
  match s.rest with
  | '!' :: _ =>
      let (name, s) := (s.advance 1).span isNameChar
      if s.rest.head? == some '!' then some ('!' :: name ++ ['!'], s.advance 1)
      else some ('!' :: name, s)
  | _ => none

/-- A tag between angle brackets, which has no handle. -/
def verbatimTag? (fuel : Nat) (s : Source) : Option (Token × Source) := do
  let (text, s) ← tagText? true fuel [] (s.advance 2)
  if s.rest.head? == some '>' then return (.tag [] text, s.advance 1) else none

/-- A tag that starts with a handle. A name that no second mark closes belongs to
the text behind the handle of one mark, and a mark alone is a tag of its own. -/
def shortTag? (fuel : Nat) (s : Source) : Option (Token × Source) := do
  let (handle, s) ← handle? s
  if 1 < handle.length ∧ handle.getLast? = some '!' then
    let (text, s) ← tagText? false fuel [] s
    return (.tag handle text, s)
  else
    let (text, s) ← tagText? false fuel handle s
    let suffix := text.drop 1
    return (if suffix.isEmpty then .tag [] ['!'] else .tag ['!'] suffix, s)

/-- A tag. Inside brackets a comma can follow it. -/
def tag? (flow : Bool) (fuel : Nat) (s : Source) : Option (Token × Source) := do
  let (tag, s) ←
    if s.rest.take 2 == ['!', '<'] then verbatimTag? fuel s else shortTag? fuel s
  if endsWord s.rest || (flow && s.rest.head? == some ',') then return (tag, s) else none

/-! ## Directives -/

/-- A number of a version, of at most nine digits. -/
def versionNumber? (s : Source) : Option (Nat × Source) := do
  let (digits, s) := s.span Char.isDigit
  if digits.length ≤ 9 then return (← Text.natural? 10 digits, s) else none

/-- The version that a directive gives. -/
def version? (s : Source) : Option (Token × Source) := do
  let (major, s) ← versionNumber? (s.skip isBlank)
  if s.rest.head? == some '.' then
    let (minor, s) ← versionNumber? (s.advance 1)
    return (.version major minor, s)
  else none

/-- The handle that a directive gives, with the text that it stands for. -/
def handleMeaning? (fuel : Nat) (s : Source) : Option (Token × Source) := do
  let (handle, s) ← handle? (s.skip isBlank)
  if (handle = ['!'] ∨ handle.getLast? = some '!') ∧ s.rest.head?.any isBlank then
    let (uri, s) ← tagText? true fuel [] (s.skip isBlank)
    if endsWord s.rest then return (.handle handle uri, s) else none
  else none

/-- A directive, from its mark to the end of its line. -/
def directive? (fuel : Nat) (s : Source) : Option (Token × Source) := do
  let (name, s) := (s.advance 1).span isNameChar
  if endsWord s.rest then
    let (token, s) ←
      if name = "YAML".toList then version? s
      else if name = "TAG".toList then handleMeaning? fuel s
      else none
    return (token, (← s.lineEnd?).skipBreak)
  else none

end Ia32.Yaml

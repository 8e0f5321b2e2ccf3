import Ia32.Yaml

/-!
# Tokens of a document

Layout turns indentation into tokens, so that a block collection has a start and
an end as one in brackets has.
-/

namespace Ia32.Yaml

/-- A token. -/
inductive Token where
  | version (major minor : Nat)
  | handle (name uri : List Char)
  | documentStart
  | documentEnd
  | blockSequenceStart
  | blockMappingStart
  | blockEnd
  | flowSequenceStart
  | flowSequenceEnd
  | flowMappingStart
  | flowMappingEnd
  | blockEntry
  | flowEntry
  | key
  | value
  | reference (name : List Char)
  | anchor (name : List Char)
  | tag (handle suffix : List Char)
  | scalar (style : Style) (text : List Char)
  deriving DecidableEq, Repr

end Ia32.Yaml

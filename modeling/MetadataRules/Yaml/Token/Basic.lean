/-
MetadataRules/Yaml/Token/Basic.lean

The tokens of YAML text.

Block style shows its structure by columns, and tokens show it by brackets of
their own: `blockSequenceStart` and `blockMappingStart` open a collection that
`blockEnd` closes.  A key is announced by `key`, and its value by `value`.
-/
import MetadataRules.Yaml.Text

namespace MetadataRules

namespace Yaml

/-- The kinds of tokens. -/
inductive TokenKind where
  | textEnd
  | documentStart
  | documentEnd
  | blockSequenceStart
  | blockMappingStart
  | blockEnd
  | flowSequenceStart
  | flowSequenceEnd
  | flowMappingStart
  | flowMappingEnd
  | blockItem
  | comma
  | key
  | value
  | plain (text : List Char)
  | quoted (text : List Char)
deriving DecidableEq

/-- A token and the place where it begins. -/
structure Token where
  kind : TokenKind
  mark : Mark

end Yaml

end MetadataRules

/-
MetadataRules/Yaml/Printer.lean

YAML trees as text in block style.

A node is a list of lines.  The items of a sequence hang on a dash, and the
entries of a mapping stand one below the other: a value that fits on one line
follows its key, a mapping comes below the key and two spaces deeper, and a
sequence comes below it at the same depth.  A key that is long or takes more
than a line hangs on a question mark, and its value on a colon.
-/
import MetadataRules.Yaml.Scalar

namespace MetadataRules

namespace Yaml

/-- The mark of a tag. -/
def tagText (tag : String) : List Char := '!' :: tag.toList

/-- The text of a node that takes a single line: a scalar, or a collection with nothing in it. -/
def inline? : Yaml → Option (List Char)
  | .null => some ['n', 'u', 'l', 'l']
  | .boolean true => some ['t', 'r', 'u', 'e']
  | .boolean false => some ['f', 'a', 'l', 's', 'e']
  | .integer i => some (intDigits i)
  | .float x => some (x.floatText floatStyle)
  | .string s => some (stringText s)
  | .sequence [] => some ['[', ']']
  | .mapping [] => some ['{', '}']
  | .sequence _ | .mapping _ => none
  | .tagged tag content => (inline? content).map fun text => tagText tag ++ ' ' :: text

/-- The bytes of a key that stands before its colon on a line are at most this many. -/
def keyLimit : Nat := 128

/-- The text of a key that stands before its colon on a line. -/
def simpleKey? (key : Yaml) : Option (List Char) :=
  (inline? key).filter fun text =>
    (match key with
      | .string s => s.utf8ByteSize
      | _ => text.length) ≤ keyLimit

/-- Two spaces before a line. -/
def indent (line : List Char) : List Char := ' ' :: ' ' :: line

/-- Lines that hang on a mark: it stands before the first line, and the others are indented. -/
def hang (mark : Char) : List (List Char) → List (List Char)
  | [] => []
  | first :: rest => (mark :: ' ' :: first) :: rest.map indent

mutual

/-- The lines of a node. -/
def lines : Yaml → List (List Char)
  | .sequence (item :: rest) => itemLines (item :: rest)
  | .mapping (entry :: rest) => entryLines (entry :: rest)
  | .tagged tag content =>
    match inline? content with
    | some text => [tagText tag ++ ' ' :: text]
    | none => tagText tag :: lines content
  | y => (inline? y).toList

/-- The lines of the items of a sequence. -/
def itemLines : List Yaml → List (List Char)
  | [] => []
  | item :: rest => hang '-' (lines item) ++ itemLines rest

/-- The lines of the entries of a mapping. -/
def entryLines : List (Yaml × Yaml) → List (List Char)
  | [] => []
  | (key, value) :: rest =>
    (match simpleKey? key, inline? value, value with
      | some k, some v, _ => [k ++ ':' :: ' ' :: v]
      | some k, none, .sequence _ => (k ++ [':']) :: lines value
      | some k, none, _ => (k ++ [':']) :: (lines value).map indent
      | none, _, _ => hang '?' (lines key) ++ hang ':' (lines value)) ++ entryLines rest

end

/-- A YAML tree as text, with a line break behind every line. -/
def toText (y : Yaml) : String := String.ofList (y.lines.flatMap (· ++ ['\n']))

end Yaml

end MetadataRules

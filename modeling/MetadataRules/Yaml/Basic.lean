/-
MetadataRules/Yaml/Basic.lean

YAML trees, and how document values become YAML and come back.

YAML knows numbers that are not finite, so no number is lost on the way out.
It also knows keys of any kind, where a document has strings: on the way back a
key becomes the text that substring tests would see.  Tags are dropped.
-/
import MetadataRules.Number.Notation
import MetadataRules.Value.Printer

namespace MetadataRules

/-- A YAML node. -/
inductive Yaml where
  | null
  | boolean (b : Bool)
  | integer (i : Int)
  | float (x : Number)
  | string (s : String)
  | sequence (items : List Yaml)
  | mapping (entries : List (Yaml × Yaml))
  | tagged (tag : String) (content : Yaml)

namespace Yaml

/-- The YAML number of a document number. -/
def ofNumber (x : Number) : Yaml :=
  match x.wholeBelow? Number.integerBound with
  | some i => .integer i
  | none => .float x

mutual

/-- The YAML tree of a document value. -/
def ofValue : Value → Yaml
  | .null => .null
  | .boolean b => .boolean b
  | .number n => ofNumber n
  | .string s => .string s
  | .array items => .sequence (ofItems items)
  | .object fields => .mapping (ofFields fields)

def ofItems : List Value → List Yaml
  | [] => []
  | v :: rest => ofValue v :: ofItems rest

def ofFields : List (String × Value) → List (Yaml × Yaml)
  | [] => []
  | (key, v) :: rest => (.string key, ofValue v) :: ofFields rest

end

mutual

/-- The document value of a YAML tree. -/
def toValue : Yaml → Value
  | .null => .null
  | .boolean b => .boolean b
  | .integer i => .number (.ofInt i)
  | .float x => .number x
  | .string s => .string s
  | .sequence items => .array (toItems items)
  | .mapping entries => .object (Fields.ofPairs (toFields entries))
  | .tagged _ content => toValue content

def toItems : List Yaml → List Value
  | [] => []
  | y :: rest => toValue y :: toItems rest

/-- Entries with the text of each key. -/
def toFields : List (Yaml × Yaml) → List (String × Value)
  | [] => []
  | (key, y) :: rest => ((toValue key).asText, toValue y) :: toFields rest

end

end Yaml

end MetadataRules

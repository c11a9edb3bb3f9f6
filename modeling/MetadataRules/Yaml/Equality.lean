/-
MetadataRules/Yaml/Equality.lean

When two YAML nodes are the same key.

An integer is no float, a missing number is the same as itself, and the order
of the entries of a mapping does not count.  A mapping that is put together
entry by entry holds no key twice: `ofEntries` lets the last value win.
-/
import MetadataRules.Yaml.Basic

namespace MetadataRules

namespace Yaml

/-- The same number, where a missing number is the same as itself. -/
def sameNumber (x y : Number) : Bool := x.equal y || (x.isNaN && y.isNaN)

mutual

/-- Equality of nodes. -/
def same : Yaml → Yaml → Bool
  | .null, .null => true
  | .boolean a, .boolean b => a == b
  | .integer i, .integer k => i == k
  | .float x, .float y => sameNumber x y
  | .string s, .string t => s == t
  | .sequence as, .sequence bs => sameItems as bs
  | .mapping as, .mapping bs => as.length == bs.length && sameEntries as bs
  | .tagged s a, .tagged t b => s == t && same a b
  | _, _ => false

/-- The same number of items, the same in pairs. -/
def sameItems : List Yaml → List Yaml → Bool
  | [], [] => true
  | a :: as, b :: bs => same a b && sameItems as bs
  | _, _ => false

/-- Every entry on the left is among the entries on the right. -/
def sameEntries : List (Yaml × Yaml) → List (Yaml × Yaml) → Bool
  | [], _ => true
  | (key, a) :: as, bs =>
    bs.any (fun entry => same key entry.1 && same a entry.2) && sameEntries as bs

end

/-- Gives a key a value: in place where the key is known, at the end otherwise. -/
def insertEntry : List (Yaml × Yaml) → Yaml → Yaml → List (Yaml × Yaml)
  | [], key, new => [(key, new)]
  | (k, v) :: rest, key, new =>
    if same k key then (k, new) :: rest else (k, v) :: insertEntry rest key new

/-- The mapping of a list of pairs: a repeated key keeps its first place and takes
its last value. -/
def ofEntries (pairs : List (Yaml × Yaml)) : Yaml :=
  .mapping (pairs.foldl (fun entries p => insertEntry entries p.1 p.2) [])

end Yaml

end MetadataRules

/-
MetadataRules/Value/Equality.lean

When two values count as equal.

`equal` is structural: arrays element by element, objects key by key whatever
the order of their entries, numbers by value.  A number that is not a number
differs even from itself.  `looseEqual`, the equality of conditions, first
looks at both sides as numbers and is structural where one of them is none.
-/
import MetadataRules.Value.Basic

namespace MetadataRules

namespace Value

mutual

/-- Structural equality, in which the order of object entries does not count. -/
def equal : Value → Value → Bool
  | .null, .null => true
  | .boolean a, .boolean b => a == b
  | .number a, .number b => a.equal b
  | .string a, .string b => a == b
  | .array as, .array bs => equalItems as bs
  | .object as, .object bs => as.length == bs.length && equalEntries as bs
  | _, _ => false

/-- The same number of elements, equal in pairs. -/
def equalItems : List Value → List Value → Bool
  | [], [] => true
  | a :: as, b :: bs => equal a b && equalItems as bs
  | _, _ => false

/-- Every key on the left has an equal value on the right. -/
def equalEntries : List (String × Value) → List (String × Value) → Bool
  | [], _ => true
  | (key, a) :: as, bs =>
    (match Fields.get? bs key with
      | some b => equal a b
      | none => false) && equalEntries as bs

end

/-- Equality of conditions: by number where both sides look numeric, structural otherwise. -/
def looseEqual (a b : Value) : Bool :=
  match a.asNumber?, b.asNumber? with
  | some x, some y => x.equal y
  | _, _ => equal a b

/-- Some element equals the value. -/
def isAmong (v : Value) (items : List Value) : Bool := items.any fun item => equal item v

end Value

end MetadataRules

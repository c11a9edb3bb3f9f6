/-
MetadataRules/Value/Order.lean

The order in which values are sorted.

Values of one kind compare by their content: numbers by the total order of bit
patterns, strings by code point, `false` before `true`, arrays element by
element and then by length, objects by their number of entries alone.  Values
of different kinds compare by kind.
-/
import MetadataRules.Value.Basic

namespace MetadataRules

namespace Value

mutual

/-- The order of values. -/
def sortOrder : Value → Value → Ordering
  | .number a, .number b => a.totalOrder b
  | .string a, .string b => compare a b
  | .boolean a, .boolean b => compare a b
  | .array as, .array bs => sortOrderItems as bs
  | .object as, .object bs => compare as.length bs.length
  | a, b => compare a.kind.rank b.kind.rank

/-- The first difference decides; without one, the shorter array is first. -/
def sortOrderItems : List Value → List Value → Ordering
  | [], [] => .eq
  | [], _ :: _ => .lt
  | _ :: _, [] => .gt
  | a :: as, b :: bs => (sortOrder a b).then (sortOrderItems as bs)

end

/-- The order of sort keys, in which an absent key is first. -/
def sortOrderOption : Option Value → Option Value → Ordering
  | none, none => .eq
  | none, some _ => .lt
  | some _, none => .gt
  | some a, some b => sortOrder a b

end Value

end MetadataRules

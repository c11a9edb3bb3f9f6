/-
MetadataRules/Value/Basic.lean

The values of a document: what a file of metadata holds once its text is read,
and what the literals of a rule stand for.

Besides the tree itself the module fixes the two coercions that conditions
know.  A value is *truthy* when it is present in the everyday sense (not
`null`, `false`, `0` or empty), and it *looks numeric* when it is a number or a
string that is a decimal number as a whole.
-/
import MetadataRules.Fields
import MetadataRules.Number.Reader

namespace MetadataRules

/-- A document or a part of one.  The entries of an object are in the order in
which they were written. -/
inductive Value where
  | null
  | boolean (b : Bool)
  | number (n : Number)
  | string (s : String)
  | array (items : List Value)
  | object (fields : List (String × Value))
deriving Inhabited

/-! ### Kinds -/

/-- The kinds of values, in the order in which values of different kinds sort. -/
inductive Kind where
  | null
  | number
  | string
  | boolean
  | array
  | object
deriving DecidableEq

/-- The place of a kind in the order of mixed values. -/
def Kind.rank : Kind → Nat
  | .null => 0
  | .number => 1
  | .string => 2
  | .boolean => 3
  | .array => 4
  | .object => 5

/-- The word for a kind in messages. -/
def Kind.name : Kind → String
  | .null => "null"
  | .number => "number"
  | .string => "string"
  | .boolean => "boolean"
  | .array => "array"
  | .object => "object"

namespace Value

def kind : Value → Kind
  | .null => .null
  | .boolean _ => .boolean
  | .number _ => .number
  | .string _ => .string
  | .array _ => .array
  | .object _ => .object

/-! ### Coercions -/

/-- Neither `null`, `false`, a zero, a missing number nor empty. -/
def isTruthy : Value → Bool
  | .null => false
  | .boolean b => b
  | .number n => !n.isZero && !n.isNaN
  | .string s => !s.isEmpty
  | .array items => !items.isEmpty
  | .object fields => !fields.isEmpty

/-- The number that a value looks like: a number itself, or the decimal that a
string is as a whole. -/
def asNumber? : Value → Option Number
  | .number n => some n
  | .string s => Number.ofText? s.toList
  | _ => none

def isString : Value → Bool
  | .string _ => true
  | _ => false

def isArray : Value → Bool
  | .array _ => true
  | _ => false

def isObject : Value → Bool
  | .object _ => true
  | _ => false

end Value

end MetadataRules

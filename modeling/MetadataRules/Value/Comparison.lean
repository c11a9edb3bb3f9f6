/-
MetadataRules/Value/Comparison.lean

The tests that conditions make on a value that is present.

Two sides that look numeric compare as numbers.  Otherwise equality is
structural, two strings order by code point, and any other ordering is false.
-/
import MetadataRules.Value.Equality
import MetadataRules.Value.Printer

namespace MetadataRules

/-- A comparison sign. -/
inductive Comparison where
  | equal
  | notEqual
  | less
  | lessEq
  | greater
  | greaterEq
deriving DecidableEq

namespace Comparison

/-- The sign in rule text. -/
def symbol : Comparison → String
  | equal => "="
  | notEqual => "!="
  | less => "<"
  | lessEq => "<="
  | greater => ">"
  | greaterEq => ">="

/-- A comparison of numbers; only `!=` holds of what is not a number. -/
def ofNumbers (op : Comparison) (a b : Number) : Bool :=
  match op with
  | equal => a.equal b
  | notEqual => !a.equal b
  | less => a.less b
  | lessEq => a.lessEq b
  | greater => b.less a
  | greaterEq => b.lessEq a

/-- A comparison of strings by code point. -/
def ofStrings (op : Comparison) (a b : String) : Bool :=
  match op with
  | equal => compare a b == .eq
  | notEqual => compare a b != .eq
  | less => compare a b == .lt
  | lessEq => compare a b != .gt
  | greater => compare a b == .gt
  | greaterEq => compare a b != .lt

/-- Whether a comparison holds between a value that is present and an expected one. -/
def holds (op : Comparison) (actual expected : Value) : Bool :=
  match actual.asNumber?, expected.asNumber? with
  | some a, some b => op.ofNumbers a b
  | _, _ =>
    match op with
    | equal => actual.equal expected
    | notEqual => !actual.equal expected
    | _ =>
      match actual, expected with
      | .string a, .string b => op.ofStrings a b
      | _, _ => false

end Comparison

namespace Value

/-- The needle stands somewhere in the text. -/
def isWithin (needle : List Char) : List Char → Bool
  | [] => needle.isEmpty
  | c :: cs => needle.isPrefixOf (c :: cs) || isWithin needle cs

/-- An element of an array, or a part of a string, equals the needle. -/
def contains (actual needle : Value) : Bool :=
  match actual with
  | .array items => needle.isAmong items
  | .string s => isWithin needle.asText.toList s.toList
  | _ => false

end Value

end MetadataRules

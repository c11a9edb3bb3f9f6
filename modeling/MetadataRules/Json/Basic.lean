/-
MetadataRules/Json/Basic.lean

JSON trees, and how document values become JSON and come back.

JSON tells integers from other numbers and has no word for what is not finite:
a small whole number becomes an integer, and an infinity or a missing number
becomes `null`.
-/
import MetadataRules.Number.Notation
import MetadataRules.Text.Layout
import MetadataRules.Text.Quoted
import MetadataRules.Value.Basic

namespace MetadataRules

/-- A JSON value.  Integers have 64 bits, with or without a sign. -/
inductive Json where
  | null
  | boolean (b : Bool)
  | integer (i : Int)
  | float (x : Number)
  | string (s : String)
  | array (items : List Json)
  | object (members : List (String × Json))

namespace Json

/-! ### Values -/

/-- The JSON number of a document number. -/
def ofNumber (x : Number) : Json :=
  match x.wholeBelow? Number.integerBound with
  | some i => .integer i
  | none => if x.isFinite then .float x else .null

mutual

/-- The JSON tree of a document value. -/
def ofValue : Value → Json
  | .null => .null
  | .boolean b => .boolean b
  | .number n => ofNumber n
  | .string s => .string s
  | .array items => .array (ofItems items)
  | .object fields => .object (ofFields fields)

def ofItems : List Value → List Json
  | [] => []
  | v :: rest => ofValue v :: ofItems rest

def ofFields : List (String × Value) → List (String × Json)
  | [] => []
  | (key, v) :: rest => (key, ofValue v) :: ofFields rest

end

mutual

/-- The document value of a JSON tree. -/
def toValue : Json → Value
  | .null => .null
  | .boolean b => .boolean b
  | .integer i => .number (.ofInt i)
  | .float x => .number x
  | .string s => .string s
  | .array items => .array (toItems items)
  | .object members => .object (Fields.ofPairs (toFields members))

def toItems : List Json → List Value
  | [] => []
  | j :: rest => toValue j :: toItems rest

def toFields : List (String × Json) → List (String × Value)
  | [] => []
  | (key, j) :: rest => (key, toValue j) :: toFields rest

end

/-! ### Text -/

/-- A character between the quotes of a JSON string. -/
def escapeChar (c : Char) : List Char :=
  if c = '"' then ['\\', '"']
  else if c = '\\' then ['\\', '\\']
  else if c = '\n' then ['\\', 'n']
  else if c = '\r' then ['\\', 'r']
  else if c = '\t' then ['\\', 't']
  else if c = '\x08' then ['\\', 'b']
  else if c = '\x0c' then ['\\', 'f']
  else if c.toNat < 0x20 then '\\' :: 'u' :: hexCode c.toNat
  else [c]

/-- Exponents have a sign on both sides, and what is not finite is `null`. -/
def floatStyle : Number.FloatStyle :=
  { plus := true
    missing := ['n', 'u', 'l', 'l']
    infinite := ['n', 'u', 'l', 'l']
    negativeInfinite := ['n', 'u', 'l', 'l'] }

mutual

/-- The texts of a JSON tree in their nesting. -/
def layout : Json → Layout
  | .null => .atom ['n', 'u', 'l', 'l']
  | .boolean true => .atom ['t', 'r', 'u', 'e']
  | .boolean false => .atom ['f', 'a', 'l', 's', 'e']
  | .integer i => .atom (intDigits i)
  | .float x => .atom (x.floatText floatStyle)
  | .string s => .atom (quoteWith escapeChar s)
  | .array items => .items (layoutItems items)
  | .object members => .entries (layoutMembers members)

def layoutItems : List Json → List Layout
  | [] => []
  | j :: rest => layout j :: layoutItems rest

def layoutMembers : List (String × Json) → List (List Char × Layout)
  | [] => []
  | (key, j) :: rest => (quoteWith escapeChar key, layout j) :: layoutMembers rest

end

/-- A JSON tree on one line. -/
def compact (j : Json) : String := String.ofList j.layout.compact

/-- A JSON tree over lines. -/
def pretty (j : Json) : String := String.ofList (j.layout.pretty 0)

end Json

end MetadataRules

/-
MetadataRules/Value/Printer.lean

The text of a value in change lines and messages.

Numbers are in their plain text and strings between quotes; `compact` stands
on one line and `pretty` on a line for each element and entry.
-/
import MetadataRules.Number.Notation
import MetadataRules.Text.Layout
import MetadataRules.Text.Quoted
import MetadataRules.Value.Basic

namespace MetadataRules

namespace Value

mutual

/-- The texts of a value in their nesting. -/
def layout : Value → Layout
  | .null => .atom ['n', 'u', 'l', 'l']
  | .boolean true => .atom ['t', 'r', 'u', 'e']
  | .boolean false => .atom ['f', 'a', 'l', 's', 'e']
  | .number n => .atom n.plainText
  | .string s => .atom (quoted s)
  | .array items => .items (layoutItems items)
  | .object fields => .entries (layoutEntries fields)

def layoutItems : List Value → List Layout
  | [] => []
  | v :: rest => layout v :: layoutItems rest

def layoutEntries : List (String × Value) → List (List Char × Layout)
  | [] => []
  | (key, v) :: rest => (quoted key, layout v) :: layoutEntries rest

end

/-- The value on one line. -/
def compact (v : Value) : String := String.ofList v.layout.compact

/-- The value over lines. -/
def pretty (v : Value) : String := String.ofList (v.layout.pretty 0)

/-- The text that substring tests look at: a string as it is, any other value on one line. -/
def asText : Value → String
  | .string s => s
  | v => v.compact

end Value

end MetadataRules

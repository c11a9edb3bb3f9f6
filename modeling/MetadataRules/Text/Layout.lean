/-
MetadataRules/Text/Layout.lean

Brackets, commas and line breaks around texts that are already made.

A layout is a tree of such texts.  `compact` writes it on one line; `pretty`
puts every item and entry on a line of its own, two spaces deeper than what
holds it.  The two differ in spaces and line breaks alone, and an empty list
is `[]` and an empty object `{}` in both.
-/
namespace MetadataRules

/-- Texts in nested lists and objects. -/
inductive Layout where
  | atom (text : List Char)
  | items (parts : List Layout)
  | entries (parts : List (List Char × Layout))

namespace Layout

/-! ### One line -/

mutual

/-- A layout on one line. -/
def compact : Layout → List Char
  | .atom text => text
  | .items [] => ['[', ']']
  | .items (l :: rest) => '[' :: (compact l ++ (compactItems rest ++ [']']))
  | .entries [] => ['{', '}']
  | .entries ((key, l) :: rest) =>
    '{' :: (key ++ ':' :: (compact l ++ (compactEntries rest ++ ['}'])))

/-- The items after the first, each behind a comma. -/
def compactItems : List Layout → List Char
  | [] => []
  | l :: rest => ',' :: (compact l ++ compactItems rest)

/-- The entries after the first, each behind a comma. -/
def compactEntries : List (List Char × Layout) → List Char
  | [] => []
  | (key, l) :: rest => ',' :: (key ++ ':' :: (compact l ++ compactEntries rest))

end

/-! ### One line for each part -/

/-- The start of a line at the given depth. -/
def newLine (depth : Nat) : List Char := '\n' :: List.replicate (2 * depth) ' '

mutual

/-- A layout over lines, at the given depth. -/
def pretty (depth : Nat) : Layout → List Char
  | .atom text => text
  | .items [] => ['[', ']']
  | .items (l :: rest) =>
    '[' :: (newLine (depth + 1) ++ (pretty (depth + 1) l ++
      (prettyItems (depth + 1) rest ++ (newLine depth ++ [']']))))
  | .entries [] => ['{', '}']
  | .entries ((key, l) :: rest) =>
    '{' :: (newLine (depth + 1) ++ (key ++ ':' :: ' ' :: (pretty (depth + 1) l ++
      (prettyEntries (depth + 1) rest ++ (newLine depth ++ ['}'])))))

/-- The items after the first, each behind a comma on a line of its own. -/
def prettyItems (depth : Nat) : List Layout → List Char
  | [] => []
  | l :: rest => ',' :: (newLine depth ++ (pretty depth l ++ prettyItems depth rest))

/-- The entries after the first, each behind a comma on a line of its own. -/
def prettyEntries (depth : Nat) : List (List Char × Layout) → List Char
  | [] => []
  | (key, l) :: rest =>
    ',' :: (newLine depth ++ (key ++ ':' :: ' ' :: (pretty depth l ++
      prettyEntries depth rest)))

end

end Layout

end MetadataRules

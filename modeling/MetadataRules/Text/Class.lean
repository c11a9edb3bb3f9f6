/-
MetadataRules/Text/Class.lean

The classes of characters that rule text and documents distinguish: white
space, letters, letters and numbers, and control characters.  The first three
follow the properties of the Unicode standard.

Words start with a letter and go on with letters, numbers and two marks.
-/
import MetadataRules.Text.Alphabetic
import MetadataRules.Text.Numeric

namespace MetadataRules

/-! ### Classes -/

/-- Some range holds the code point. -/
def inRanges (ranges : List (Nat × Nat)) (c : Char) : Bool :=
  ranges.any fun r => r.1 ≤ c.toNat && c.toNat ≤ r.2

/-- The ranges of the Unicode property White_Space. -/
def blankRanges : List (Nat × Nat) :=
  [(0x0009, 0x000D), (0x0020, 0x0020), (0x0085, 0x0085), (0x00A0, 0x00A0), (0x1680, 0x1680),
    (0x2000, 0x200A), (0x2028, 0x2029), (0x202F, 0x202F), (0x205F, 0x205F), (0x3000, 0x3000)]

/-- White space. -/
def isBlank (c : Char) : Bool := inRanges blankRanges c

/-- A letter: a character with the property Alphabetic. -/
def isLetter (c : Char) : Bool := inRanges Alphabetic.ranges c

/-- A digit or another character that is a number by itself. -/
def isNumeral (c : Char) : Bool := inRanges Numeric.ranges c

/-- A letter or a number. -/
def isAlphanumeric (c : Char) : Bool := isLetter c || isNumeral c

/-- A control character of ASCII or of Latin-1. -/
def isControl (c : Char) : Bool :=
  c.toNat < 0x20 || (0x7F ≤ c.toNat && c.toNat ≤ 0x9F)

/-! ### Words -/

/-- A character that a word starts with. -/
def startsWord (c : Char) : Bool := isLetter c || c = '_'

/-- A character that a word goes on with. -/
def continuesWord (c : Char) : Bool := isAlphanumeric c || c = '_' || c = '-'

end MetadataRules

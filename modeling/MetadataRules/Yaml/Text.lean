/-
MetadataRules/Yaml/Text.lean

The characters of YAML text and their places.

A text is read as a list of cells, each a character and its place.  However a
line is broken, it is broken by one cell: a carriage return, a line feed, the
two together and U+0085 are all a line feed, and only the separators U+2028 and
U+2029 stay what they are.  A place counts lines, characters within a line, and
bytes from the start of the text.
-/
namespace MetadataRules

namespace Yaml

/-! ### Characters -/

/-- The characters that a text may hold. -/
def isAllowed (c : Char) : Bool :=
  let n := c.toNat
  n = 0x09 || n = 0x0A || n = 0x0D || n = 0x85 || (0x20 ≤ n && n ≤ 0x7E) ||
    (0xA0 ≤ n && n ≤ 0xFFFD) || 0x10000 ≤ n

/-- A space or a tab. -/
def isGap (c : Char) : Bool := c = ' ' || c = '\t'

/-- A character that breaks a line. -/
def isBreak (c : Char) : Bool :=
  let n := c.toNat
  n = 0x0A || n = 0x0D || n = 0x85 || n = 0x2028 || n = 0x2029

/-- The mark that may stand in front of a text and says how it is encoded. -/
def byteOrderMark : Char := '\uFEFF'

/-- The line break that a character is. -/
def lineBreak (c : Char) : Char := if c.toNat = 0x0D || c.toNat = 0x85 then '\n' else c

/-! ### Places -/

/-- A place in a text, counted from zero: its distance from the start in bytes,
its line, and its distance from the start of the line in characters. -/
structure Mark where
  index : Nat
  line : Nat
  column : Nat
deriving DecidableEq

namespace Mark

/-- The start of a text. -/
def start : Mark := ⟨0, 0, 0⟩

/-- The place in words; lines and columns are counted from one here. -/
def text (m : Mark) : String := s!"line {m.line + 1} column {m.column + 1}"

/-- The place behind `bytes` bytes that break a line. -/
def nextLine (m : Mark) (bytes : Nat) : Mark := ⟨m.index + bytes, m.line + 1, 0⟩

/-- The place behind a character. -/
def next (m : Mark) (c : Char) : Mark :=
  if isBreak c then m.nextLine c.utf8Size else ⟨m.index + c.utf8Size, m.line, m.column + 1⟩

end Mark

/-! ### Cells -/

/-- A character and its place. -/
structure Cell where
  char : Char
  mark : Mark

/-- The cells of a text that stands at a place, and the place behind it. -/
def cells (m : Mark) : List Char → List Cell × Mark
  | [] => ([], m)
  | '\r' :: '\n' :: rest =>
    let (behind, finish) := cells (m.nextLine 2) rest
    (⟨'\n', m⟩ :: behind, finish)
  | c :: rest =>
    let (behind, finish) := cells (m.next c) rest
    (⟨lineBreak c, m⟩ :: behind, finish)

/-- The place of the first of some cells, where the text ends at `finish`. -/
def here (finish : Mark) : List Cell → Mark
  | [] => finish
  | c :: _ => c.mark

/-- What comes next ends a word: a gap, a line break or the end of the text. -/
def endsWord : List Cell → Bool
  | [] => true
  | c :: _ => isGap c.char || isBreak c.char

/-- A line begins with the marker that begins or ends a document. -/
def isMarker (cs : List Cell) : Bool :=
  let mark := (cs.take 3).map Cell.char
  cs.head?.any (·.mark.column = 0) &&
    (mark = ['-', '-', '-'] || mark = ['.', '.', '.']) && endsWord (cs.drop 3)

end Yaml

end MetadataRules

/-
MetadataRules/Path/Basic.lean

Paths: the dotted addresses of fields and elements.

A path is a list of segments.  A leading `@` names the value that the path
starts from and may be left out, so two paths that differ in it alone have the
same `steps`.  The text of a path writes a key plainly where it can be read as
a word and between quotes otherwise.
-/
import MetadataRules.Keyword
import MetadataRules.Number.Notation
import MetadataRules.Text.Class

namespace MetadataRules

/-- One step of a path: a key, a position in an array, or `@`. -/
inductive Segment where
  | key (name : String)
  | index (i : Int)
  | current
deriving DecidableEq

/-- A path into a document.  Paths of rule text have at least one segment and
`@` in the first place only. -/
structure Path where
  segments : List Segment
deriving DecidableEq

/-- The place in an array of the given length that an index stands for; a
negative index counts from the end. -/
def position? (index : Int) (length : Nat) : Option Nat :=
  if 0 ≤ index then
    if index < length then some index.toNat else none
  else if index.natAbs ≤ length then some (length - index.natAbs)
  else none

/-- A position lies inside the array. -/
theorem lt_of_position? {index : Int} {length pos : Nat}
    (h : position? index length = some pos) : pos < length := by
  unfold position? at h
  split at h <;> split at h <;> simp at h <;> omega

namespace Segment

/-- The object key that a segment names: positions are written in decimal. -/
def key? : Segment → Option String
  | .key name => some name
  | .index i => some (String.ofList (intDigits i))
  | .current => none

@[simp] theorem key?_key (name : String) : (key name).key? = some name := rfl

theorem key_ne_current (name : String) : key name ≠ current := nofun

theorem current_notMem_cons {s : Segment} {rest : List Segment} :
    current ∉ s :: rest ↔ s ≠ current ∧ current ∉ rest := by
  rw [List.mem_cons, not_or, ne_comm]

/-- A key that can stand in a path without quotes. -/
def isPlainKey (name : String) : Bool :=
  match name.toList with
  | [] => false
  | c :: rest =>
    startsWord c && rest.all continuesWord && (Keyword.ofName? name).isNone
      && name ≠ "true" && name ≠ "false" && name ≠ "null"

/-- A segment as it stands in a path. -/
def chars : Segment → List Char
  | .key name =>
    if isPlainKey name then name.toList
    else quoteKey name.toList
  | .index i => intDigits i
  | .current => ['@']
where
  /-- A key between quotes, with a backslash before a quote inside. -/
  quoteKey (name : List Char) : List Char :=
    '"' :: (name.flatMap (fun c => if c = '"' then ['\\', '"'] else [c]) ++ ['"'])

end Segment

namespace Path

/-- The path `@`. -/
def current : Path := ⟨[.current]⟩

/-- The segments after a leading `@`. -/
def steps (p : Path) : List Segment :=
  match p.segments with
  | .current :: rest => rest
  | segments => segments

/-- True when the path names the very value it starts from. -/
def isCurrent (p : Path) : Bool := p.steps.isEmpty

/-- Segments with a dot between each two. -/
def joinDots : List Segment → List Char
  | [] => []
  | [s] => s.chars
  | s :: rest => s.chars ++ '.' :: joinDots rest

def chars (p : Path) : List Char := joinDots p.segments

/-- The path as rule text. -/
def text (p : Path) : String := String.ofList p.chars

/-- The path of the object and the key in it, when the last step is a key. -/
def splitKey? (p : Path) : Option (Path × String) :=
  match p.steps.getLast? with
  | some (.key name) => some (⟨p.steps.dropLast⟩, name)
  | _ => none

end Path

end MetadataRules

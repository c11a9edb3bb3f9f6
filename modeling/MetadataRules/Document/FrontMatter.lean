/-
MetadataRules/Document/FrontMatter.lean

Metadata in front of a body of text.

Front matter stands between a line of three dashes, which must be the first line
of all, and the next line of three dashes or dots, which may have white space
behind it.  A text without both lines has no front matter.  Splitting keeps
every character: opening line, metadata, closing line and body make up the text
(`flatten_rawLines`, `append_of_splitAtDelimiter`).
-/
import MetadataRules.Text.Class

namespace MetadataRules

namespace FrontMatter

/-! ### Lines with their breaks -/

/-- The lines of a text, each with its line break. -/
def rawLines : List Char → List (List Char)
  | [] => []
  | c :: cs =>
    if c = '\n' then [c] :: rawLines cs
    else match rawLines cs with
      | [] => [[c]]
      | line :: rest => (c :: line) :: rest

theorem flatten_rawLines (cs : List Char) : (rawLines cs).flatten = cs := by
  induction cs with
  | nil => rfl
  | cons c cs ih =>
    rw [rawLines]
    split
    · rw [List.flatten_cons, ih]
      rfl
    · split
      · rename_i h
        rw [h] at ih
        rw [← ih]
        rfl
      · rename_i line rest h
        rw [h] at ih
        rw [← ih]
        rfl

/-- A line without the white space at its end. -/
def trimEnd (line : List Char) : List Char := (line.reverse.dropWhile isBlank).reverse

/-- A line that ends front matter. -/
def isDelimiter (line : List Char) : Bool :=
  trimEnd line == ['-', '-', '-'] || trimEnd line == ['.', '.', '.']

/-! ### Splitting -/

/-- The text behind the opening line. -/
def afterOpening? : List Char → Option (List Char)
  | '-' :: '-' :: '-' :: '\n' :: rest => some rest
  | '-' :: '-' :: '-' :: '\r' :: '\n' :: rest => some rest
  | _ => none

/-- The lines before the first delimiter, the delimiter and the lines behind it. -/
def splitAtDelimiter? :
    List (List Char) → Option (List (List Char) × List Char × List (List Char))
  | [] => none
  | line :: rest =>
    if isDelimiter line then some ([], line, rest)
    else (splitAtDelimiter? rest).map fun (front, closing, body) => (line :: front, closing, body)

theorem append_of_splitAtDelimiter {lines front body : List (List Char)} {closing : List Char}
    (h : splitAtDelimiter? lines = some (front, closing, body)) :
    lines = front ++ closing :: body := by
  induction lines generalizing front with
  | nil => simp [splitAtDelimiter?] at h
  | cons line rest ih =>
    rw [splitAtDelimiter?] at h
    split at h
    · simp only [Option.some.injEq, Prod.mk.injEq] at h
      obtain ⟨rfl, rfl, rfl⟩ := h
      rfl
    · obtain ⟨⟨f, d, b⟩, hrest, heq⟩ := Option.map_eq_some_iff.1 h
      simp only [Prod.mk.injEq] at heq
      obtain ⟨rfl, rfl, rfl⟩ := heq
      rw [List.cons_append, ← ih hrest]

/-- The metadata of a text and the body behind it, where it has front matter. -/
def split? (text : List Char) : Option (List Char × List Char) := do
  let rest ← afterOpening? text
  let (front, _, body) ← splitAtDelimiter? (rawLines rest)
  return (front.flatten, body.flatten)

/-- Metadata and a body as one text. -/
def join (front body : List Char) : List Char :=
  '-' :: '-' :: '-' :: '\n' :: (front ++ '-' :: '-' :: '-' :: '\n' :: body)

end FrontMatter

end MetadataRules

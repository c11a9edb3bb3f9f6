/-
MetadataRules/Proofs/Document/FrontMatter.lean

Lines, and where front matter ends.

A text whose last line has its break is followed by other lines as a list is
followed by another (`FrontMatter.rawLines_append`).  So what is joined in front
of a body is split off again at the line that was put between them, unless the
metadata itself has a line that would end it (`FrontMatter.split?_join`); and a
text without such a line is not split at all (`FrontMatter.split?_eq_none`).
-/
import MetadataRules.Document.FrontMatter

namespace MetadataRules

namespace FrontMatter

variable {front text : List Char}

/-! ### Lines -/

theorem rawLines_break (cs : List Char) : rawLines ('\n' :: cs) = ['\n'] :: rawLines cs := by
  rw [rawLines, if_pos rfl]

theorem rawLines_ne_nil (h : text ≠ []) : rawLines text ≠ [] := by
  intro hnil
  have hflat := flatten_rawLines text
  rw [hnil] at hflat
  exact h hflat.symm

/-- What stands behind a line break stands on lines of its own. -/
theorem rawLines_append (cs rest : List Char) :
    rawLines (cs ++ '\n' :: rest) = rawLines (cs ++ ['\n']) ++ rawLines rest := by
  induction cs with
  | nil =>
    rw [List.nil_append, List.nil_append, rawLines_break, rawLines_break]
    rfl
  | cons c cs ih =>
    rw [List.cons_append, List.cons_append, rawLines, rawLines, ih]
    split
    · rfl
    · rcases hlines : rawLines (cs ++ ['\n']) with - | ⟨line, lines⟩
      · exact absurd hlines (rawLines_ne_nil (List.append_ne_nil_of_right_ne_nil cs (by simp)))
      · rfl

/-- The line that is put behind the metadata. -/
theorem rawLines_closing (body : List Char) :
    rawLines ('-' :: '-' :: '-' :: '\n' :: body) = ['-', '-', '-', '\n'] :: rawLines body := by
  simp [rawLines]

/-! ### Splitting -/

theorem isDelimiter_closing : isDelimiter ['-', '-', '-', '\n'] = true := by decide +kernel

theorem isDelimiter_closing_return : isDelimiter ['-', '-', '-', '\r', '\n'] = true := by
  decide +kernel

/-- Lines are split at the first that is a delimiter. -/
theorem splitAtDelimiter?_append {lines : List (List Char)} {closing : List Char}
    (hlines : ∀ line ∈ lines, isDelimiter line = false) (hclosing : isDelimiter closing = true)
    (body : List (List Char)) :
    splitAtDelimiter? (lines ++ closing :: body) = some (lines, closing, body) := by
  induction lines with
  | nil => rw [List.nil_append, splitAtDelimiter?, if_pos hclosing]
  | cons line rest ih =>
    obtain ⟨hline, hrest⟩ := List.forall_mem_cons.1 hlines
    rw [List.cons_append, splitAtDelimiter?, if_neg (hline ▸ Bool.false_ne_true), ih hrest]
    rfl

/-- **Metadata and body come apart where they were joined**, whatever the body looks like, if
the metadata is made of whole lines and none of them is a delimiter. -/
theorem split?_join (hend : ∃ cs, front = cs ++ ['\n'])
    (hlines : ∀ line ∈ rawLines front, isDelimiter line = false) (body : List Char) :
    split? (join front body) = some (front, body) := by
  obtain ⟨cs, rfl⟩ := hend
  have hopening : afterOpening? (join (cs ++ ['\n']) body) =
      some (cs ++ ['\n'] ++ '-' :: '-' :: '-' :: '\n' :: body) := rfl
  -- the line that closes is a line of its own, since the metadata ends with its line
  have hrest : rawLines (cs ++ ['\n'] ++ '-' :: '-' :: '-' :: '\n' :: body) =
      rawLines (cs ++ ['\n']) ++ ['-', '-', '-', '\n'] :: rawLines body := by
    rw [List.append_assoc, List.singleton_append, rawLines_append, rawLines_closing]
  have hsplit := splitAtDelimiter?_append hlines isDelimiter_closing (rawLines body)
  rw [← hrest] at hsplit
  simp only [split?, hopening, hsplit, Option.bind_eq_bind, Option.bind_some]
  rw [flatten_rawLines, flatten_rawLines]
  rfl

/-- A text that opens like front matter has a delimiter for its first line. -/
theorem exists_delimiter_of_afterOpening? {rest : List Char}
    (h : afterOpening? text = some rest) : ∃ line ∈ rawLines text, isDelimiter line = true := by
  unfold afterOpening? at h
  split at h
  · rename_i cs
    rw [rawLines_closing]
    exact ⟨_, List.mem_cons_self, isDelimiter_closing⟩
  · rename_i cs
    have hlines : rawLines ('-' :: '-' :: '-' :: '\r' :: '\n' :: cs) =
        ['-', '-', '-', '\r', '\n'] :: rawLines cs := by
      simp [rawLines]
    rw [hlines]
    exact ⟨_, List.mem_cons_self, isDelimiter_closing_return⟩
  · cases h

/-- A text without a delimiter among its lines has no front matter. -/
theorem split?_eq_none (hlines : ∀ line ∈ rawLines text, isDelimiter line = false) :
    split? text = none := by
  rcases hopening : afterOpening? text with - | rest
  · simp only [split?, hopening, Option.bind_eq_bind, Option.bind_none]
  · obtain ⟨line, hmem, hdelimiter⟩ := exists_delimiter_of_afterOpening? hopening
    rw [hlines line hmem] at hdelimiter
    cases hdelimiter

end FrontMatter

end MetadataRules

/-
MetadataRules/Proofs/Document/Split.lean

Where front matter stands in a text.

`FrontMatter.StandsAsLine before line behind` says what a line of a text is,
with no word about how lines are found: it begins the text or follows a line
break, and it ends with its own break or ends the text.  The lines that a text
is taken apart into are the lines in that sense
(`FrontMatter.mem_rawLines_iff`, `FrontMatter.rawLines_of_standsAsLine`).

So a split can be told from the text alone.  Opening line, metadata, closing
line and body make up the text, and the closing line is the first delimiter
behind the opening one (`FrontMatter.split?_iff`).
-/
import MetadataRules.Proofs.Document.FrontMatter

namespace MetadataRules

namespace FrontMatter

variable {text before line behind front body closing : List Char} {lines : List (List Char)}

/-! ### Lines of a text -/

/-- A line with its break. -/
def IsWhole (line : List Char) : Prop := ∃ cs, '\n' ∉ cs ∧ line = cs ++ ['\n']

/-- A line of the text that the three parts make up together: it begins the text or follows a
line break, and it has its own break or ends the text. -/
structure StandsAsLine (before line behind : List Char) : Prop where
  begins : before = [] ∨ before.getLast? = some '\n'
  ends : IsWhole line ∨ '\n' ∉ line ∧ behind = []

theorem IsWhole.rawLines_append (h : IsWhole line) (rest : List Char) :
    rawLines (line ++ rest) = line :: rawLines rest := by
  obtain ⟨cs, hcs, rfl⟩ := h
  induction cs with
  | nil => exact rawLines_break rest
  | cons c cs ih =>
    obtain ⟨hc, hcs⟩ := List.ne_and_not_mem_of_not_mem_cons hcs
    rw [List.cons_append, List.cons_append, rawLines, if_neg (Ne.symm hc), ih hcs]

/-- A text without a line break is one line. -/
theorem rawLines_of_notMem (hne : line ≠ []) (h : '\n' ∉ line) : rawLines line = [line] := by
  induction line with
  | nil => exact absurd rfl hne
  | cons c cs ih =>
    obtain ⟨hc, hcs⟩ := List.ne_and_not_mem_of_not_mem_cons h
    rw [rawLines, if_neg (Ne.symm hc)]
    rcases cs with - | ⟨d, cs⟩
    · rfl
    · rw [ih (List.cons_ne_nil d cs) hcs]

/-- The first line of a text has its break, or it is the last one too. -/
theorem rawLines_eq_cons (h : rawLines text = line :: lines) :
    (∃ rest, IsWhole line ∧ text = line ++ rest ∧ lines = rawLines rest) ∨
      '\n' ∉ line ∧ text = line ∧ lines = [] := by
  induction text generalizing line lines with
  | nil => cases h
  | cons c cs ih =>
    rw [rawLines] at h
    split at h
    · rename_i hc
      obtain ⟨rfl, rfl⟩ := List.cons.inj h
      exact .inl ⟨cs, ⟨[], List.not_mem_nil, by rw [hc]; rfl⟩, rfl, rfl⟩
    · rename_i hc
      have hbreak : ∀ ds, '\n' ∉ ds → '\n' ∉ c :: ds :=
        fun _ hds => List.not_mem_cons_of_ne_of_not_mem (Ne.symm hc) hds
      split at h
      · rename_i hnil
        obtain ⟨rfl, rfl⟩ := List.cons.inj h
        have hcs := flatten_rawLines cs
        rw [hnil] at hcs
        obtain rfl : [] = cs := hcs
        exact .inr ⟨hbreak [] List.not_mem_nil, rfl, rfl⟩
      · rename_i first rest hrest
        obtain ⟨rfl, rfl⟩ := List.cons.inj h
        rcases ih hrest with ⟨more, ⟨ds, hds, rfl⟩, rfl, hlines⟩ | ⟨hfirst, rfl, rfl⟩
        · exact .inl ⟨more, ⟨c :: ds, hbreak ds hds, rfl⟩, rfl, hlines⟩
        · exact .inr ⟨hbreak _ hfirst, rfl, rfl⟩

/-- A line that stands in a text is taken out of it as one line, between the lines before it and
those behind it. -/
theorem rawLines_of_standsAsLine (h : StandsAsLine before line behind) (hne : line ≠ []) :
    rawLines (before ++ (line ++ behind)) = rawLines before ++ line :: rawLines behind := by
  have hrest : rawLines (line ++ behind) = line :: rawLines behind := by
    rcases h.ends with hwhole | ⟨hline, rfl⟩
    · exact hwhole.rawLines_append behind
    · rw [List.append_nil, rawLines_of_notMem hne hline]
      rfl
  rcases h.begins with rfl | hlast
  · exact hrest
  · obtain ⟨cs, rfl⟩ := List.getLast?_eq_some_iff.1 hlast
    rw [List.append_assoc, List.singleton_append, FrontMatter.rawLines_append, hrest]

/-- What is taken out of a text as one line stands in it as a line, and the lines before it are
the lines of what stands before it. -/
theorem standsAsLine_of_rawLines {after : List (List Char)}
    (h : rawLines text = lines ++ line :: after) :
    StandsAsLine lines.flatten line after.flatten ∧ rawLines lines.flatten = lines := by
  induction lines generalizing text with
  | nil =>
    refine ⟨⟨.inl rfl, ?_⟩, rfl⟩
    rcases rawLines_eq_cons h with ⟨rest, hwhole, -, -⟩ | ⟨hline, -, rfl⟩
    · exact .inl hwhole
    · exact .inr ⟨hline, rfl⟩
  | cons first lines ih =>
    rcases rawLines_eq_cons h with ⟨rest, hwhole, -, hrest⟩ | ⟨-, -, hnil⟩
    · obtain ⟨⟨hbegins, hends⟩, hlines⟩ := ih hrest.symm
      refine ⟨⟨.inr ?_, hends⟩, ?_⟩
      · -- the lines in between end with a break, or there are none
        obtain ⟨cs, -, rfl⟩ := hwhole
        rcases hbegins with hnil | hlast
        · rw [List.flatten_cons, hnil, List.append_nil, List.getLast?_concat]
        · rw [List.flatten_cons, List.getLast?_append, hlast]
          rfl
      · rw [List.flatten_cons, hwhole.rawLines_append, hlines]
    · exact absurd hnil (List.append_ne_nil_of_right_ne_nil _ (List.cons_ne_nil _ _))

theorem mem_rawLines_iff (hne : line ≠ []) :
    line ∈ rawLines text ↔
      ∃ before behind, text = before ++ (line ++ behind) ∧ StandsAsLine before line behind := by
  constructor
  · intro h
    obtain ⟨lines, after, hlines⟩ := List.append_of_mem h
    refine ⟨lines.flatten, after.flatten, ?_, (standsAsLine_of_rawLines hlines).1⟩
    rw [← flatten_rawLines text, hlines, List.flatten_append, List.flatten_cons]
  · rintro ⟨before, behind, rfl, h⟩
    rw [rawLines_of_standsAsLine h hne]
    exact List.mem_append_right _ List.mem_cons_self

/-! ### Delimiters -/

theorem ne_nil_of_isDelimiter (h : isDelimiter line = true) : line ≠ [] := by
  rintro rfl
  cases h

/-- The lines that may open a text with front matter. -/
def openings : List (List Char) := [['-', '-', '-', '\n'], ['-', '-', '-', '\r', '\n']]

theorem afterOpening?_eq_some_iff {rest : List Char} :
    afterOpening? text = some rest ↔ ∃ opening ∈ openings, text = opening ++ rest := by
  constructor
  · intro h
    unfold afterOpening? at h
    split at h
    · obtain rfl := Option.some.inj h
      exact ⟨_, List.mem_cons_self, rfl⟩
    · obtain rfl := Option.some.inj h
      exact ⟨_, List.mem_cons_of_mem _ List.mem_cons_self, rfl⟩
    · cases h
  · rintro ⟨opening, hopening, rfl⟩
    rcases List.mem_cons.1 hopening with rfl | hopening
    · rfl
    · obtain rfl := List.mem_singleton.1 hopening
      rfl

/-- The line that lines are split at is their first delimiter. -/
theorem delimiter_of_splitAtDelimiter? {front body : List (List Char)}
    (h : splitAtDelimiter? lines = some (front, closing, body)) :
    isDelimiter closing = true ∧ ∀ line ∈ front, isDelimiter line = false := by
  induction lines generalizing front with
  | nil => cases h
  | cons line rest ih =>
    rw [splitAtDelimiter?] at h
    split at h
    · rename_i hline
      cases h
      exact ⟨hline, List.forall_mem_nil _⟩
    · rename_i hline
      obtain ⟨⟨before, closing, body⟩, hrest, heq⟩ := Option.map_eq_some_iff.1 h
      cases heq
      obtain ⟨hclosing, hbefore⟩ := ih hrest
      exact ⟨hclosing, List.forall_mem_cons.2 ⟨Bool.eq_false_iff.2 hline, hbefore⟩⟩

/-- A delimiter among the lines of a text is one that they can be split at. -/
theorem splitAtDelimiter?_isSome (hmem : line ∈ lines) (hline : isDelimiter line = true) :
    ∃ split, splitAtDelimiter? lines = some split := by
  induction lines with
  | nil => cases hmem
  | cons first rest ih =>
    rw [splitAtDelimiter?]
    split
    · exact ⟨_, rfl⟩
    · rename_i hfirst
      rcases List.mem_cons.1 hmem with rfl | hmem
      · exact absurd hline hfirst
      · obtain ⟨split, hsplit⟩ := ih hmem
        exact ⟨_, by rw [hsplit]; rfl⟩

/-- A delimiter closes the front matter that stands in front of it: it is a line of its own and
no line before it is a delimiter. -/
structure Closes (front closing body : List Char) : Prop where
  standsAsLine : StandsAsLine front closing body
  isDelimiter : isDelimiter closing = true
  first : ∀ before line behind, front = before ++ (line ++ behind) →
    StandsAsLine before line behind → FrontMatter.isDelimiter line = false

theorem Closes.of_mem_rawLines (h : Closes front closing body) :
    ∀ line ∈ rawLines front, FrontMatter.isDelimiter line = false := by
  intro line hmem
  rw [Bool.eq_false_iff]
  intro hdelimiter
  obtain ⟨before, behind, hsplit, hline⟩ :=
    (mem_rawLines_iff (ne_nil_of_isDelimiter hdelimiter)).1 hmem
  rw [h.first before line behind hsplit hline] at hdelimiter
  cases hdelimiter

/-- The first delimiter among the lines of a text closes what stands before it. -/
theorem splitAtDelimiter?_eq_some_iff {rest : List Char} :
    (∃ lines after, splitAtDelimiter? (rawLines rest) = some (lines, closing, after) ∧
        lines.flatten = front ∧ after.flatten = body) ↔
      rest = front ++ (closing ++ body) ∧ Closes front closing body := by
  constructor
  · rintro ⟨lines, after, h, rfl, rfl⟩
    have hlines := append_of_splitAtDelimiter h
    obtain ⟨hstands, hfront⟩ := standsAsLine_of_rawLines hlines
    obtain ⟨hclosing, hfirst⟩ := delimiter_of_splitAtDelimiter? h
    refine ⟨?_, hstands, hclosing, fun before line behind hsplit hline => ?_⟩
    · rw [← flatten_rawLines rest, hlines, List.flatten_append, List.flatten_cons]
    · rw [Bool.eq_false_iff]
      intro hdelimiter
      have hmem := (mem_rawLines_iff (ne_nil_of_isDelimiter hdelimiter)).2
        ⟨before, behind, hsplit, hline⟩
      rw [hfront] at hmem
      rw [hfirst line hmem] at hdelimiter
      cases hdelimiter
  · rintro ⟨rfl, hcloses⟩
    have hne := ne_nil_of_isDelimiter hcloses.isDelimiter
    refine ⟨rawLines front, rawLines body, ?_, flatten_rawLines front, flatten_rawLines body⟩
    rw [rawLines_of_standsAsLine hcloses.standsAsLine hne]
    exact splitAtDelimiter?_append hcloses.of_mem_rawLines hcloses.isDelimiter (rawLines body)

/-! ### Where a text is split -/

/-- What comes apart at the opening line and the delimiter that closes the metadata. -/
theorem split?_eq_some_iff :
    split? text = some (front, body) ↔
      ∃ opening ∈ openings, ∃ closing,
        text = opening ++ (front ++ (closing ++ body)) ∧ Closes front closing body := by
  have hsplit : split? text = some (front, body) ↔
      ∃ rest, afterOpening? text = some rest ∧ ∃ closing lines after,
        splitAtDelimiter? (rawLines rest) = some (lines, closing, after) ∧
          lines.flatten = front ∧ after.flatten = body := by
    simp only [split?, Option.bind_eq_bind, Option.bind_eq_some_iff, Option.pure_def,
      Option.some.injEq, Prod.exists, Prod.mk.injEq]
    constructor
    · rintro ⟨rest, hrest, lines, closing, after, hlines⟩
      exact ⟨rest, hrest, closing, lines, after, hlines⟩
    · rintro ⟨rest, hrest, closing, lines, after, hlines⟩
      exact ⟨rest, hrest, lines, closing, after, hlines⟩
  rw [hsplit]
  constructor
  · rintro ⟨rest, hrest, closing, hlines⟩
    obtain ⟨opening, hopening, rfl⟩ := afterOpening?_eq_some_iff.1 hrest
    obtain ⟨rfl, hcloses⟩ := splitAtDelimiter?_eq_some_iff.1 hlines
    exact ⟨opening, hopening, closing, rfl, hcloses⟩
  · rintro ⟨opening, hopening, closing, rfl, hcloses⟩
    exact ⟨_, afterOpening?_eq_some_iff.2 ⟨opening, hopening, rfl⟩, closing,
      splitAtDelimiter?_eq_some_iff.2 ⟨rfl, hcloses⟩⟩

/-- A text is split if it opens like front matter and has a delimiter later on. -/
theorem exists_split?_iff :
    (∃ front body, split? text = some (front, body)) ↔
      ∃ opening ∈ openings, ∃ before line behind,
        text = opening ++ (before ++ (line ++ behind)) ∧ StandsAsLine before line behind ∧
          isDelimiter line = true := by
  constructor
  · rintro ⟨front, body, h⟩
    obtain ⟨opening, hopening, closing, htext, hcloses⟩ := split?_eq_some_iff.1 h
    exact ⟨opening, hopening, front, closing, body, htext, hcloses.standsAsLine,
      hcloses.isDelimiter⟩
  · rintro ⟨opening, hopening, before, line, behind, rfl, hstands, hline⟩
    have hmem : line ∈ rawLines (before ++ (line ++ behind)) :=
      (mem_rawLines_iff (ne_nil_of_isDelimiter hline)).2 ⟨before, behind, rfl, hstands⟩
    obtain ⟨⟨lines, closing, after⟩, hlines⟩ := splitAtDelimiter?_isSome hmem hline
    obtain ⟨hrest, hcloses⟩ := splitAtDelimiter?_eq_some_iff.1 ⟨lines, after, hlines, rfl, rfl⟩
    exact ⟨lines.flatten, after.flatten,
      split?_eq_some_iff.2 ⟨opening, hopening, closing, by rw [hrest], hcloses⟩⟩

/-- **A split loses nothing of a text.**  A text is split just if it opens with a line of three
dashes and a later line of it is a delimiter; and then opening line, metadata, closing line and
body are the text, the closing line is the first delimiter, and so the metadata is made of whole
lines none of which is one. -/
theorem split?_iff (text : List Char) :
    ((∃ front body, split? text = some (front, body)) ↔
      ∃ opening ∈ openings, ∃ before line behind,
        text = opening ++ (before ++ (line ++ behind)) ∧ StandsAsLine before line behind ∧
          isDelimiter line = true) ∧
    (∀ front body, split? text = some (front, body) ↔
      ∃ opening ∈ openings, ∃ closing,
        text = opening ++ (front ++ (closing ++ body)) ∧ Closes front closing body) ∧
    ∀ front body, split? text = some (front, body) →
      (front = [] ∨ front.getLast? = some '\n') ∧
        ∀ line ∈ rawLines front, isDelimiter line = false := by
  refine ⟨exists_split?_iff, fun _ _ => split?_eq_some_iff, fun front body h => ?_⟩
  obtain ⟨opening, -, closing, -, hcloses⟩ := split?_eq_some_iff.1 h
  exact ⟨hcloses.standsAsLine.begins, hcloses.of_mem_rawLines⟩

end FrontMatter

end MetadataRules

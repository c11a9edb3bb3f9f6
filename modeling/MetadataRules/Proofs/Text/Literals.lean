/-
MetadataRules/Proofs/Text/Literals.lean

String literals in a printed text.

A scan of a text knows at every character whether it is in a string literal, and
if so whether a backslash stands right before.  `pieces` cuts a text there: a
literal with its quotes is one piece, and every character outside is one.  What
was written by `quoted` is a literal, whatever the string holds
(`pieces_quoted`).

`SpacedOut loose tight strings` says of two texts that the second one has the
pieces of the first one, spaces and line breaks outside of literals apart, and
that the literals are those strings.  Texts of which this holds can be put one
behind the other (`SpacedOut.append`).
-/
import MetadataRules.Text.Layout
import MetadataRules.Text.Quoted

namespace MetadataRules

/-! ### Pieces -/

/-- A string literal with its quotes, or a character outside of the literals. -/
inductive Piece where
  | char (c : Char)
  | literal (text : List Char)

namespace Piece

/-- The characters of a piece. -/
def chars : Piece → List Char
  | char c => [c]
  | literal text => text

/-- A literal, or a character other than a space and a line break. -/
def isSolid : Piece → Bool
  | char c => c ≠ ' ' && c ≠ '\n'
  | literal _ => true

def literal? : Piece → Option (List Char)
  | char _ => none
  | literal text => some text

/-- One character more in front of the literal that comes first. -/
def grow (c : Char) : List Piece → List Piece
  | literal text :: ps => literal (c :: text) :: ps
  | ps => literal [c] :: ps

theorem flatMap_chars_grow (c : Char) (ps : List Piece) :
    (grow c ps).flatMap chars = c :: ps.flatMap chars := by
  unfold grow
  split <;> rfl

theorem foldr_grow (cs text : List Char) (ps : List Piece) :
    cs.foldr grow (literal text :: ps) = literal (cs ++ text) :: ps := by
  induction cs with
  | nil => rfl
  | cons c cs ih => rw [List.foldr_cons, ih]; rfl

end Piece

open Piece (grow flatMap_chars_grow foldr_grow)

/-- Where a scan of a text is: outside of the literals, in one, or in one and behind the
backslash of an escape. -/
inductive Quoting where
  | outside
  | inside
  | escaped

/-- The pieces of a text. -/
def pieces : Quoting → List Char → List Piece
  | _, [] => []
  | .outside, c :: cs =>
    if c = '"' then grow c (pieces .inside cs) else .char c :: pieces .outside cs
  | .inside, c :: cs =>
    if c = '"' then .literal [c] :: pieces .outside cs
    else if c = '\\' then grow c (pieces .escaped cs)
    else grow c (pieces .inside cs)
  | .escaped, c :: cs => grow c (pieces .inside cs)

/-- The text without the spaces and line breaks that are outside of its string literals. -/
def withoutSpace (text : String) : String :=
  String.ofList (((pieces .outside text.toList).filter Piece.isSolid).flatMap Piece.chars)

/-- The string literals of a text, with their quotes. -/
def literals (text : String) : List (List Char) :=
  (pieces .outside text.toList).filterMap Piece.literal?

section Pieces

variable {c : Char} {cs more : List Char}

/-- The pieces of a text make it up. -/
theorem flatMap_chars_pieces (q : Quoting) (cs : List Char) :
    (pieces q cs).flatMap Piece.chars = cs := by
  fun_induction pieces q cs with
  | case1 => rfl
  | case2 cs ih => rw [flatMap_chars_grow, ih]
  | case3 c cs hc ih => rw [List.flatMap_cons, ih]; rfl
  | case4 cs ih => rw [List.flatMap_cons, ih]; rfl
  | case5 cs hc ih => rw [flatMap_chars_grow, ih]
  | case6 c cs hc hs ih => rw [flatMap_chars_grow, ih]
  | case7 c cs ih => rw [flatMap_chars_grow, ih]

theorem pieces_escape (e : Char) (cs : List Char) :
    pieces .inside ('\\' :: e :: cs) = grow '\\' (grow e (pieces .inside cs)) := rfl

theorem pieces_plain (hquote : c ≠ '"') (hslash : c ≠ '\\') (cs : List Char) :
    pieces .inside (c :: cs) = grow c (pieces .inside cs) := by
  rw [pieces, if_neg hquote, if_neg hslash]

theorem hexDigit_ne (n : Nat) : hexDigit n ≠ '"' ∧ hexDigit n ≠ '\\' := by
  have hdigits : ∀ k < 16, Nat.digitChar k ≠ '"' ∧ Nat.digitChar k ≠ '\\' := by decide
  exact hdigits _ (Nat.mod_lt n (by decide))

/-- No character that is written in a literal ends it. -/
theorem pieces_escapeChar (c : Char) (more : List Char) :
    pieces .inside (escapeChar c ++ more) = (escapeChar c).foldr grow (pieces .inside more) := by
  unfold escapeChar
  -- an escape grows the literal by two characters, the scan passes over the second one
  split
  · exact pieces_escape '"' more
  split
  · exact pieces_escape '\\' more
  split
  · exact pieces_escape 'n' more
  split
  · exact pieces_escape 'r' more
  split
  · exact pieces_escape 't' more
  split
  · have hhex (n : Nat) (cs : List Char) :
        pieces .inside (hexDigit n :: cs) = grow (hexDigit n) (pieces .inside cs) :=
      pieces_plain (hexDigit_ne n).1 (hexDigit_ne n).2 cs
    simp only [hexCode, List.cons_append, List.nil_append, pieces_escape, hhex, List.foldr_cons,
      List.foldr_nil]
  · rename_i hquote hslash _ _ _ _
    exact pieces_plain hquote hslash more

theorem pieces_escaped (cs more : List Char) :
    pieces .inside (cs.flatMap escapeChar ++ more) =
      (cs.flatMap escapeChar).foldr grow (pieces .inside more) := by
  induction cs with
  | nil => rfl
  | cons c cs ih =>
    rw [List.flatMap_cons, List.append_assoc, pieces_escapeChar, ih, List.foldr_append]

/-- **A string between quotes is one literal**, whatever it holds and whatever follows. -/
theorem pieces_quoted (s : String) (more : List Char) :
    pieces .outside (quoted s ++ more) = .literal (quoted s) :: pieces .outside more := by
  have hclose : pieces .inside ('"' :: more) = .literal ['"'] :: pieces .outside more := rfl
  have hopen : ∀ cs, pieces .outside ('"' :: cs) = grow '"' (pieces .inside cs) := fun cs => rfl
  rw [quoted, quoteWith, List.cons_append, List.append_assoc, hopen, pieces_escaped,
    List.singleton_append, hclose, foldr_grow]
  rfl

end Pieces

/-! ### More and less space -/

/-- Where the scan is outside of the literals, a text is cut into the given pieces, and behind it
the scan is outside again. -/
def CutsInto (text : List Char) (ps : List Piece) : Prop :=
  ∀ more, pieces .outside (text ++ more) = ps ++ pieces .outside more

theorem CutsInto.append {a b : List Char} {ps qs : List Piece} (ha : CutsInto a ps)
    (hb : CutsInto b qs) : CutsInto (a ++ b) (ps ++ qs) := by
  intro more
  rw [List.append_assoc, ha, hb, List.append_assoc]

theorem CutsInto.pieces_eq {text : List Char} {ps : List Piece} (h : CutsInto text ps) :
    pieces .outside text = ps := by
  have hnil := h []
  rwa [List.append_nil, pieces, List.append_nil] at hnil

theorem cutsInto_nil : CutsInto [] [] := fun _ => rfl

theorem cutsInto_char {c : Char} (hc : c ≠ '"') : CutsInto [c] [.char c] := by
  intro more
  rw [List.singleton_append, pieces, if_neg hc]
  rfl

/-- A character that is neither a quote nor a space nor a line break. -/
def isPlain (c : Char) : Bool := c ≠ '"' && c ≠ ' ' && c ≠ '\n'

/-- The two texts have the same pieces, spaces and line breaks outside of literals apart, which
the second one has not.  The literals are the strings, in their order. -/
def SpacedOut (loose tight : List Char) (strings : List String) : Prop :=
  ∃ ps, CutsInto loose ps ∧ CutsInto tight (ps.filter Piece.isSolid) ∧
    ps.filterMap Piece.literal? = strings.map quoted

namespace SpacedOut

variable {loose tight loose' tight' text : List Char} {strings strings' : List String} {c : Char}

theorem append (h : SpacedOut loose tight strings) (h' : SpacedOut loose' tight' strings') :
    SpacedOut (loose ++ loose') (tight ++ tight') (strings ++ strings') := by
  obtain ⟨ps, hloose, htight, hstrings⟩ := h
  obtain ⟨qs, hloose', htight', hstrings'⟩ := h'
  refine ⟨ps ++ qs, hloose.append hloose', ?_, ?_⟩
  · rw [List.filter_append]
    exact htight.append htight'
  · rw [List.filterMap_append, hstrings, hstrings', List.map_append]

theorem nil : SpacedOut [] [] [] := ⟨[], cutsInto_nil, cutsInto_nil, rfl⟩

theorem literal (s : String) : SpacedOut (quoted s) (quoted s) [s] :=
  ⟨[.literal (quoted s)], pieces_quoted s, pieces_quoted s, rfl⟩

theorem char (hc : isPlain c = true) : SpacedOut [c] [c] [] := by
  obtain ⟨⟨hquote, hspace⟩, hline⟩ : (c ≠ '"' ∧ c ≠ ' ') ∧ c ≠ '\n' := by
    simpa [isPlain] using hc
  refine ⟨[.char c], cutsInto_char hquote, ?_, rfl⟩
  have hsolid : [Piece.char c].filter Piece.isSolid = [.char c] := by
    simp [Piece.isSolid, hspace, hline]
  rw [hsolid]
  exact cutsInto_char hquote

theorem cons (hc : isPlain c = true) (h : SpacedOut loose tight strings) :
    SpacedOut (c :: loose) (c :: tight) strings :=
  (char hc).append h

theorem plain (h : text.all isPlain = true) : SpacedOut text text [] := by
  induction text with
  | nil => exact nil
  | cons c text ih =>
    obtain ⟨hc, htext⟩ := Bool.and_eq_true_iff.1 h
    exact (ih htext).cons hc

theorem space (hc : c = ' ' ∨ c = '\n') (h : SpacedOut loose tight strings) :
    SpacedOut (c :: loose) tight strings := by
  have hspace : SpacedOut [c] [] [] := by
    rcases hc with rfl | rfl
    · exact ⟨[.char ' '], cutsInto_char (by decide), cutsInto_nil, rfl⟩
    · exact ⟨[.char '\n'], cutsInto_char (by decide), cutsInto_nil, rfl⟩
  exact hspace.append h

theorem newLine (depth : Nat) (h : SpacedOut loose tight strings) :
    SpacedOut (Layout.newLine depth ++ loose) tight strings := by
  refine space (.inr rfl) ?_
  -- one space after the other, whatever their number
  induction 2 * depth with
  | zero => exact h
  | succ n ih => exact ih.space (.inl rfl)

/-- Parts with commas between them. -/
theorem separated {α : Type} {write write' : α → List Char} {stringsOf : α → List String}
    {a : α} {rest : List α} (h : ∀ b ∈ a :: rest, SpacedOut (write b) (write' b) (stringsOf b)) :
    SpacedOut (write a ++ rest.flatMap fun b => ',' :: write b)
      (write' a ++ rest.flatMap fun b => ',' :: write' b) ((a :: rest).flatMap stringsOf) := by
  obtain ⟨ha, hrest⟩ := List.forall_mem_cons.1 h
  refine ha.append ?_
  clear ha h
  induction rest with
  | nil => exact nil
  | cons b rest ih =>
    obtain ⟨hb, hbelow⟩ := List.forall_mem_cons.1 hrest
    exact (hb.cons rfl).append (ih hbelow)

/-- With the space taken away the one text is the other one, and both have the same literals. -/
theorem spec (h : SpacedOut loose tight strings) :
    withoutSpace (String.ofList loose) = String.ofList tight ∧
      literals (String.ofList loose) = strings.map quoted ∧
      literals (String.ofList tight) = strings.map quoted := by
  obtain ⟨ps, hloose, htight, hstrings⟩ := h
  have hkept : (ps.filter Piece.isSolid).filterMap Piece.literal? =
      ps.filterMap Piece.literal? := by
    rw [List.filterMap_filter]
    congr 1
    funext p
    cases p with
    | char c => exact ite_self none
    | literal text => rfl
  unfold withoutSpace literals
  rw [String.toList_ofList, String.toList_ofList, hloose.pieces_eq, htight.pieces_eq, hkept]
  refine ⟨?_, hstrings, hstrings⟩
  rw [← htight.pieces_eq, flatMap_chars_pieces]

end SpacedOut

end MetadataRules

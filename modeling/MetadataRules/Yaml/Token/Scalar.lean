/-
MetadataRules/Yaml/Token/Scalar.lean

Reading the scalars of YAML text: quoted ones up to the closing quote, and plain
ones as far as they go.

Both may go on over several lines, and fold them: a single line break between
two words is a space, further ones stay, and the spaces and tabs around a break
are dropped (`Fold`).
-/
import MetadataRules.Yaml.Fault

namespace MetadataRules

namespace Yaml

/-! ### Between two words -/

/-- What stands between two words of a scalar, last character first: spaces and tabs, or
line breaks.  The first break is missing where a backslash stands before it. -/
inductive Fold where
  | gaps (reversed : List Char)
  | breaks (first : Option Char) (reversed : List Char)

namespace Fold

/-- Nothing. -/
def none : Fold := gaps []

/-- Some line is broken. -/
def isBroken : Fold → Bool
  | gaps _ => false
  | breaks _ _ => true

/-- Nothing stands between the words. -/
def isNone : Fold → Bool
  | gaps reversed => reversed.isEmpty
  | breaks _ _ => false

/-- A space or a tab more. -/
def addGap (c : Char) : Fold → Fold
  | gaps reversed => gaps (c :: reversed)
  | breaks first reversed => breaks first reversed

/-- A line break more. -/
def addBreak (c : Char) : Fold → Fold
  | gaps _ => breaks (some c) []
  | breaks first reversed => breaks first (c :: reversed)

/-- What the scalar holds between the two words, last character first. -/
def text : Fold → List Char
  | gaps reversed => reversed
  | breaks Option.none reversed => reversed
  | breaks (some first) reversed =>
    if first ≠ '\n' then reversed ++ [first]
    else if reversed.isEmpty then [' ']
    else reversed

end Fold

/-! ### Between quotes -/

/-- The character of an escape that is a single letter or mark. -/
def shortEscape? : Char → Option Char
  | '0' => some '\x00'
  | 'a' => some '\x07'
  | 'b' => some '\x08'
  | 't' | '\t' => some '\t'
  | 'n' => some '\n'
  | 'v' => some '\x0b'
  | 'f' => some '\x0c'
  | 'r' => some '\r'
  | 'e' => some '\x1b'
  | ' ' => some ' '
  | '"' => some '"'
  | '/' => some '/'
  | '\\' => some '\\'
  | 'N' => some '\u0085'
  | '_' => some '\u00A0'
  | 'L' => some '\u2028'
  | 'P' => some '\u2029'
  | _ => none

/-- How many hexadecimal digits belong to an escape. -/
def escapeWidth? : Char → Option Nat
  | 'x' => some 2
  | 'u' => some 4
  | 'U' => some 8
  | _ => none

/-- The code that the first `width` cells are the hexadecimal digits of. -/
def escapeCode? (width : Nat) (cs : List Cell) : Option Nat :=
  if width ≤ cs.length then digitsTo? 16 0 ((cs.take width).map Cell.char) else none

/-- The character of the escape behind a backslash, and the cells behind it. -/
def escape (start finish : Mark) (backslash : Cell) (cs : List Cell) :
    Except Fault (Char × List Cell) :=
  match cs with
  | [] => .error ⟨.unknownEscape, backslash.mark, some (.escape, start)⟩
  | e :: behind =>
    match escapeWidth? e.char with
    | some width =>
      match escapeCode? width behind with
      | none => .error ⟨.escapeDigits, here finish behind, some (.escape, start)⟩
      | some code =>
        if code.isValidChar then .ok (Char.ofNat code, behind.drop width)
        else .error ⟨.escapeCode, here finish behind, some (.escape, start)⟩
    | none =>
      match shortEscape? e.char with
      | some x => .ok (x, behind)
      | none => .error ⟨.unknownEscape, backslash.mark, some (.escape, start)⟩

theorem length_escape_lt {start finish : Mark} {backslash : Cell} {cs rest : List Cell} {x : Char}
    (h : escape start finish backslash cs = .ok (x, rest)) : rest.length < cs.length := by
  unfold escape at h
  split at h
  · simp at h
  · split at h
    · split at h
      · simp at h
      · split at h
        · simp only [Except.ok.injEq, Prod.mk.injEq] at h
          simp only [← h.2, List.length_drop, List.length_cons]
          omega
        · simp at h
    · split at h
      · simp only [Except.ok.injEq, Prod.mk.injEq] at h
        simp only [← h.2, List.length_cons]
        omega
      · simp at h

/-- Reads on between quotes: the text of the scalar and the cells behind its closing
quote.  `text` is what was read before, last character first, and `fold` what
stands behind it. -/
def quotedText (quote : Char) (start finish : Mark) (text : List Char) (fold : Fold)
    (cs : List Cell) : Except Fault (List Char × List Cell) :=
  match cs with
  | [] => .error ⟨.openQuotes, finish, some (.quoted, start)⟩
  | c :: rest =>
    if isGap c.char then quotedText quote start finish text (fold.addGap c.char) rest
    else if isBreak c.char then quotedText quote start finish text (fold.addBreak c.char) rest
    else if isMarker (c :: rest) then .error ⟨.markerInQuotes, c.mark, some (.quoted, start)⟩
    else if c.char = quote then
      match rest with
      | d :: behind =>
        if quote = '\'' ∧ d.char = quote then
          quotedText quote start finish (quote :: (fold.text ++ text)) .none behind
        else .ok ((fold.text ++ text).reverse, d :: behind)
      | [] => .ok ((fold.text ++ text).reverse, [])
    else if quote = '"' ∧ c.char = '\\' then
      if rest.head?.any (isBreak ·.char) then
        quotedText quote start finish (fold.text ++ text) (.breaks none []) rest.tail
      else
        match _h : escape start finish c rest with
        | .error fault => .error fault
        | .ok (x, behind) =>
          quotedText quote start finish (x :: (fold.text ++ text)) .none behind
    else quotedText quote start finish (c.char :: (fold.text ++ text)) .none rest
termination_by cs.length
decreasing_by
  · exact Nat.lt_succ_self _
  · exact Nat.lt_succ_self _
  · simp only [List.length_cons]
    omega
  · simp only [List.length_cons, List.length_tail]
    omega
  · exact Nat.lt_succ_of_lt (length_escape_lt _h)
  · exact Nat.lt_succ_self _

theorem length_quotedText_le {quote : Char} {start finish : Mark} {text body : List Char}
    {fold : Fold} {cs rest : List Cell}
    (h : quotedText quote start finish text fold cs = .ok (body, rest)) :
    rest.length ≤ cs.length := by
  fun_induction quotedText quote start finish text fold cs with
  | case1 => simp at h
  | case2 _ _ _ _ _ ih => exact Nat.le_succ_of_le (ih h)
  | case3 _ _ _ _ _ _ ih => exact Nat.le_succ_of_le (ih h)
  | case4 => simp at h
  | case5 _ _ _ _ _ _ _ _ _ _ ih => exact Nat.le_succ_of_le (Nat.le_succ_of_le (ih h))
  | case6 =>
    simp only [Except.ok.injEq, Prod.mk.injEq] at h
    simp only [← h.2, List.length_cons]
    omega
  | case7 =>
    simp only [Except.ok.injEq, Prod.mk.injEq] at h
    simp only [← h.2, List.length_nil, Nat.zero_le]
  | case8 _ _ _ _ _ _ _ _ _ _ ih =>
    have := ih h
    simp only [List.length_tail, List.length_cons] at this ⊢
    omega
  | case9 => simp at h
  | case10 _ _ _ _ _ _ _ _ _ _ _ _ heq ih =>
    have := ih h
    have := length_escape_lt heq
    simp only [List.length_cons]
    omega
  | case11 _ _ _ _ _ _ _ _ _ ih => exact Nat.le_succ_of_le (ih h)

/-! ### Plain -/

/-- The characters that brackets and commas are, which no plain scalar in brackets holds. -/
def isFlowMark (c : Char) : Bool := c = ',' || c = '[' || c = ']' || c = '{' || c = '}'

/-- A colon in front of the character is no part of a plain scalar in brackets. -/
def strandsColon (c : Char) : Bool := c = '?' || isFlowMark c

/-- A plain scalar does not go on with these cells.  Behind white space it ends at a
comment, at a marker, and outside of brackets where the line is not deep enough. -/
def endsPlain (inFlow : Bool) (depth : Int) (fold : Fold) (c : Cell) (rest : List Cell) : Bool :=
  (!fold.isNone && ((!inFlow && c.mark.column < depth) || isMarker (c :: rest) || c.char = '#')) ||
    (c.char = ':' && endsWord rest) || (inFlow && isFlowMark c.char)

/-- Reads on in a plain scalar: its text, whether a line was broken behind it, and the
cells behind that.  In block style a line goes on with the scalar from the
column `depth` on. -/
def plainText (inFlow : Bool) (depth : Int) (start : Mark) (text : List Char) (fold : Fold) :
    List Cell → Except Fault (List Char × Bool × List Cell)
  | [] => .ok (text.reverse, fold.isBroken, [])
  | c :: rest =>
    if isGap c.char then
      if fold.isBroken && c.mark.column < depth && c.char = '\t' then
        .error ⟨.tabIndentation, c.mark, some (.plain, start)⟩
      else plainText inFlow depth start text (fold.addGap c.char) rest
    else if isBreak c.char then plainText inFlow depth start text (fold.addBreak c.char) rest
    else if endsPlain inFlow depth fold c rest then
      .ok (text.reverse, fold.isBroken, c :: rest)
    else if inFlow && c.char = ':' && rest.head?.any (strandsColon ·.char) then
      .error ⟨.colonInWord, c.mark, some (.plain, start)⟩
    else plainText inFlow depth start (c.char :: (fold.text ++ text)) .none rest

theorem length_plainText_le {inFlow broken : Bool} {depth : Int} {start : Mark}
    {text body : List Char} {fold : Fold} {cs rest : List Cell}
    (h : plainText inFlow depth start text fold cs = .ok (body, broken, rest)) :
    rest.length ≤ cs.length := by
  fun_induction plainText inFlow depth start text fold cs with
  | case1 =>
    simp only [Except.ok.injEq, Prod.mk.injEq] at h
    simp only [← h.2.2, List.length_nil, Nat.le_refl]
  | case2 => simp at h
  | case3 _ _ _ _ _ _ ih => exact Nat.le_succ_of_le (ih h)
  | case4 _ _ _ _ _ _ ih => exact Nat.le_succ_of_le (ih h)
  | case5 =>
    simp only [Except.ok.injEq, Prod.mk.injEq] at h
    simp only [← h.2.2, Nat.le_refl]
  | case6 => simp at h
  | case7 _ _ _ _ _ _ _ _ ih => exact Nat.le_succ_of_le (ih h)

end Yaml

end MetadataRules

/-
MetadataRules/Yaml/Token/Lexer.lean

Splitting YAML text into tokens.

A scalar or a bracket may turn out to be a key, if a colon follows it on the
same line and not far behind.  So a scanner leaves a slot open in front of it,
and the colon fills the slot: with `key`, and with the start of a mapping where
the key is deeper than the collections that are open.  A slot that no colon
fills stays empty.

Where a text cannot be split, the tokens before the fault are still there to be
read, up to the first slot that might have been filled.
-/
import MetadataRules.Yaml.Token.Basic
import MetadataRules.Yaml.Token.Scalar

namespace MetadataRules

namespace Yaml

/-! ### Lexemes -/

/-- What stands in a text between white space. -/
inductive Lexeme where
  | documentStart
  | documentEnd
  | opening (square : Bool)
  | closing (square : Bool)
  | comma
  | dash
  | question
  | colon
  | quoted (text : List Char)
  /-- A line may be broken behind a plain scalar. -/
  | plain (text : List Char) (broken : Bool)

/-- A plain scalar begins with the character, where `rest` is behind it. -/
def beginsPlain (inFlow : Bool) (c : Char) (rest : List Cell) : Bool :=
  if c = '-' then !rest.head?.any (isGap ·.char)
  else if c = '?' || c = ':' then !inFlow && !endsWord rest
  else !isGap c && !isBreak c && !indicators.contains c

/-- The lexeme of one character, where `rest` is behind it. -/
def mark? (inFlow : Bool) (c : Char) (rest : List Cell) : Option Lexeme :=
  match c with
  | '[' => some (.opening true)
  | '{' => some (.opening false)
  | ']' => some (.closing true)
  | '}' => some (.closing false)
  | ',' => some .comma
  | '-' => if endsWord rest then some .dash else none
  | '?' => if inFlow || endsWord rest then some .question else none
  | ':' => if inFlow || endsWord rest then some .colon else none
  | _ => none

/-- The lexeme that begins with a cell, and the cells behind it.  A plain scalar goes on
from the column `depth` on. -/
def lexeme (finish : Mark) (inFlow : Bool) (depth : Int) (c : Cell) (rest : List Cell) :
    Except Fault (Lexeme × List Cell) :=
  if isMarker (c :: rest) then
    .ok (if c.char = '-' then .documentStart else .documentEnd, rest.drop 2)
  else match mark? inFlow c.char rest with
    | some l => .ok (l, rest)
    | none =>
      if c.char = '"' || c.char = '\'' then
        match quotedText c.char c.mark finish [] .none rest with
        | .ok (text, behind) => .ok (.quoted text, behind)
        | .error fault => .error fault
      else if beginsPlain inFlow c.char rest then
        match plainText inFlow depth c.mark [c.char] .none rest with
        | .ok (text, broken, behind) => .ok (.plain text broken, behind)
        | .error fault => .error fault
      else .error ⟨.noToken, c.mark, some (.token, c.mark)⟩

theorem length_behind_lexeme_le {finish : Mark} {inFlow : Bool} {depth : Int} {c : Cell}
    {rest behind : List Cell} {l : Lexeme}
    (h : lexeme finish inFlow depth c rest = .ok (l, behind)) : behind.length ≤ rest.length := by
  rw [lexeme] at h
  by_cases hm : isMarker (c :: rest) = true
  · simp only [hm, if_true, Except.ok.injEq, Prod.mk.injEq] at h
    rw [← h.2, List.length_drop]
    exact Nat.sub_le _ _
  · rw [if_neg hm] at h
    split at h
    · simp only [Except.ok.injEq, Prod.mk.injEq] at h
      exact Nat.le_of_eq (congrArg List.length h.2.symm)
    · split at h
      · split at h
        · rename_i hq
          simp only [Except.ok.injEq, Prod.mk.injEq] at h
          exact length_quotedText_le (h.2 ▸ hq)
        · simp at h
      · split at h
        · split at h
          · rename_i hp
            simp only [Except.ok.injEq, Prod.mk.injEq] at h
            exact length_plainText_le (h.2 ▸ hp)
          · simp at h
        · simp at h

/-- The cells behind white space, comments and line breaks, and whether a key may begin
there: in block style it may on a new line.  Where it may, a tab is no white space. -/
def skipBlank (inFlow keyAllowed inComment : Bool) : List Cell → Bool × List Cell
  | [] => (keyAllowed, [])
  | c :: rest =>
    if isBreak c.char then skipBlank inFlow (keyAllowed || !inFlow) false rest
    else if inComment || c.char = '#' then skipBlank inFlow keyAllowed true rest
    else if c.char = ' ' || (c.char = '\t' && (inFlow || !keyAllowed)) ||
        (c.char = byteOrderMark && c.mark.index = 0) then
      skipBlank inFlow keyAllowed false rest
    else (keyAllowed, c :: rest)

theorem length_skipBlank_le (inFlow keyAllowed inComment : Bool) (cs : List Cell) :
    (skipBlank inFlow keyAllowed inComment cs).2.length ≤ cs.length := by
  fun_induction skipBlank inFlow keyAllowed inComment cs with
  | case1 => exact Nat.le_refl _
  | case2 _ _ _ _ _ ih => exact Nat.le_succ_of_le ih
  | case3 _ _ _ _ _ _ ih => exact Nat.le_succ_of_le ih
  | case4 _ _ _ _ _ _ _ ih => exact Nat.le_succ_of_le ih
  | case5 => exact Nat.le_refl _

/-! ### The scanner -/

/-- A token that a colon may turn into a key. -/
structure PossibleKey where
  /-- The line is a mistake unless a colon follows. -/
  required : Bool
  slot : Nat
  mark : Mark

/-- What a scanner knows between two tokens. -/
structure Scanner where
  /-- The tokens so far; a slot that is still open holds none. -/
  slots : Array (List Token)
  /-- The columns of the block collections that are open, the innermost first. -/
  columns : List Int
  /-- A key may begin here. -/
  keyAllowed : Bool
  /-- The possible key between the innermost brackets. -/
  key : Option PossibleKey
  /-- The possible keys around them, one for each bracket that is open. -/
  outerKeys : List (Option PossibleKey)

namespace Scanner

/-- The scanner at the start of a text. -/
def initial : Scanner := ⟨#[], [], true, none, []⟩

/-- Some bracket is open. -/
def inFlow (s : Scanner) : Bool := !s.outerKeys.isEmpty

/-- The column of the innermost block collection; none is open left of the text. -/
def column (s : Scanner) : Int := s.columns.headD (-1)

def push (s : Scanner) (kind : TokenKind) (m : Mark) : Scanner :=
  { s with slots := s.slots.push [⟨kind, m⟩] }

/-! #### Possible keys -/

/-- How far behind the start of a key its colon may stand, in bytes. -/
def keyReach : Nat := 1024

/-- A colon at the place is too far behind the key. -/
def isStale (m : Mark) (k : PossibleKey) : Bool :=
  k.mark.line < m.line || k.mark.index + keyReach < m.index

/-- The fault of a required key without its colon. -/
def missingColon (m : Mark) (k : PossibleKey) : Fault := ⟨.noColon, m, some (.simpleKey, k.mark)⟩

/-- Gives up the possible key between the innermost brackets. -/
def dropKey (s : Scanner) (m : Mark) : Except Fault Scanner :=
  match s.key with
  | some k => if k.required then .error (missingColon m k) else .ok { s with key := none }
  | none => .ok s

/-- Gives up the possible keys that are too far from the place. -/
def dropStale (s : Scanner) (m : Mark) : Except Fault Scanner :=
  match (s.outerKeys ++ [s.key]).findSome? (·.filter fun k => isStale m k && k.required) with
  | some k => .error (missingColon m k)
  | none =>
    let fresh := Option.filter fun k => !isStale m k
    .ok { s with key := fresh s.key, outerKeys := s.outerKeys.map fresh }

/-- Opens a slot for a key that may begin at the place.  One that begins at the column of
the innermost block collection has to be a key. -/
def expectKey (s : Scanner) (m : Mark) : Except Fault Scanner :=
  if s.keyAllowed then
    (s.dropKey m).map fun s =>
      { s with
        slots := s.slots.push []
        key := some ⟨!s.inFlow && s.column = m.column, s.slots.size, m⟩ }
  else .ok s

/-- How many slots will not change any more. -/
def settled (s : Scanner) : Nat :=
  (s.key :: s.outerKeys).foldl (fun n k => match k with
    | some k => min n k.slot
    | none => n) s.slots.size

/-! #### Block collections -/

/-- Closes the block collections that are deeper than a column. -/
def closeBlocks (s : Scanner) (column : Int) (m : Mark) : Scanner :=
  if s.inFlow then s
  else
    let deeper := s.columns.takeWhile (column < ·)
    { deeper.foldl (fun s _ => s.push .blockEnd m) s with
      columns := s.columns.drop deeper.length }

/-- Opens a block collection, unless the innermost one is as deep. -/
def openBlock (s : Scanner) (kind : TokenKind) (m : Mark) : Scanner :=
  if !s.inFlow && s.column < m.column then
    { s.push kind m with columns := m.column :: s.columns }
  else s

/-- Fills the slot of a key. -/
def fillKey (s : Scanner) (k : PossibleKey) : Scanner :=
  let opens := !s.inFlow && s.column < k.mark.column
  let start := if opens then [⟨.blockMappingStart, k.mark⟩] else []
  { s with
    slots := s.slots.setIfInBounds k.slot (start ++ [⟨.key, k.mark⟩])
    columns := if opens then (k.mark.column : Int) :: s.columns else s.columns
    key := none }

/-! #### One lexeme after the other -/

/-- A mark that begins an item, a key or a value in block style, where one may begin. -/
def beginBlock (s : Scanner) (kind : TokenKind) (problem : Problem) (m : Mark) :
    Except Fault Scanner :=
  if s.inFlow then .ok s
  else if s.keyAllowed then .ok (s.openBlock kind m)
  else .error ⟨problem, m, none⟩

/-- A document begins or ends. -/
def marker (s : Scanner) (kind : TokenKind) (m : Mark) : Except Fault Scanner :=
  ((s.closeBlocks (-1) m).dropKey m).map fun s => { s.push kind m with keyAllowed := false }

/-- A bracket opens. -/
def opening (s : Scanner) (kind : TokenKind) (m : Mark) : Except Fault Scanner :=
  (s.expectKey m).map fun s =>
    { s.push kind m with keyAllowed := true, key := none, outerKeys := s.key :: s.outerKeys }

/-- A bracket closes. -/
def closing (s : Scanner) (kind : TokenKind) (m : Mark) : Except Fault Scanner :=
  (s.dropKey m).map fun s =>
    { s.push kind m with
      keyAllowed := false
      key := s.outerKeys.headD none
      outerKeys := s.outerKeys.tail }

/-- A mark that parts nodes. -/
def mark (s : Scanner) (kind : TokenKind) (m : Mark) (keyAllowed : Bool) : Except Fault Scanner :=
  (s.dropKey m).map fun s => { s.push kind m with keyAllowed := keyAllowed }

/-- A colon: the key in front of it is behind an open slot, or else empty. -/
def colon (s : Scanner) (m : Mark) : Except Fault Scanner :=
  match s.key with
  | some k => .ok { (s.fillKey k).push .value m with keyAllowed := false }
  | none =>
    (s.beginBlock .blockMappingStart .misplacedValue m).map fun s =>
      { s.push .value m with keyAllowed := !s.inFlow }

/-- A scalar. -/
def scalar (s : Scanner) (kind : TokenKind) (m : Mark) (keyAllowed : Bool) :
    Except Fault Scanner :=
  (s.expectKey m).map fun s => { s.push kind m with keyAllowed := keyAllowed }

/-- Takes the lexeme at a place. -/
def take (s : Scanner) (m : Mark) : Lexeme → Except Fault Scanner
  | .documentStart => s.marker .documentStart m
  | .documentEnd => s.marker .documentEnd m
  | .opening square => s.opening (if square then .flowSequenceStart else .flowMappingStart) m
  | .closing square => s.closing (if square then .flowSequenceEnd else .flowMappingEnd) m
  | .comma => s.mark .comma m true
  | .dash => do (← s.beginBlock .blockSequenceStart .misplacedItem m).mark .blockItem m true
  | .question => do (← s.beginBlock .blockMappingStart .misplacedKey m).mark .key m !s.inFlow
  | .colon => s.colon m
  | .quoted text => s.scalar (.quoted text) m false
  | .plain text broken => s.scalar (.plain text) m broken

/-- The scanner at the end of the text, which ends its last line. -/
def finish (s : Scanner) (m : Mark) : Except Fault Scanner := do
  let m := if m.column = 0 then m else m.nextLine 0
  let s ← (s.closeBlocks (-1) m).dropKey m
  (s.push .textEnd m).dropStale m

/-- Takes what comes next: the scanner behind it and the cells that are left, none at the
end of the text. -/
def step (finish : Mark) (s : Scanner) (cs : List Cell) :
    Except Fault (Scanner × Option (List Cell)) :=
  let (keyAllowed, left) := skipBlank s.inFlow s.keyAllowed false cs
  let m := here finish left
  match { s with keyAllowed := keyAllowed }.dropStale m with
  | .error fault => .error fault
  | .ok s =>
    let s := s.closeBlocks m.column m
    match left with
    | [] =>
      match s.finish m with
      | .error fault => .error fault
      | .ok s => .ok (s, none)
    | c :: rest =>
      match lexeme finish s.inFlow (s.column + 1) c rest with
      | .error fault => .error fault
      | .ok (l, behind) =>
        match (s.take m l).bind (·.dropStale (here finish behind)) with
        | .error fault => .error fault
        | .ok s => .ok (s, some behind)

theorem length_step_lt {finish : Mark} {s s' : Scanner} {cs behind : List Cell}
    (h : step finish s cs = .ok (s', some behind)) : behind.length < cs.length := by
  unfold step at h
  have hskip := length_skipBlank_le s.inFlow s.keyAllowed false cs
  generalize skipBlank s.inFlow s.keyAllowed false cs = skipped at h hskip
  obtain ⟨keyAllowed, left⟩ := skipped
  simp only at h hskip
  split at h
  · simp at h
  · split at h
    · split at h <;> simp at h
    · split at h
      · simp at h
      · split at h
        · simp at h
        · rename_i hlex _ _ _
          simp only [Except.ok.injEq, Prod.mk.injEq, Option.some.injEq] at h
          have := length_behind_lexeme_le hlex
          rw [← h.2]
          simp only [List.length_cons] at hskip
          omega

end Scanner

/-! ### Whole texts -/

/-- The tokens of a text, and the fault behind them where it cannot be split as a whole. -/
structure Tokens where
  tokens : List Token
  fault : Option Fault

/-- Splits what is left of a text. -/
def scan (finish : Mark) (s : Scanner) (cs : List Cell) : Tokens :=
  match _h : s.step finish cs with
  | .error fault => ⟨(s.slots.toList.take s.settled).flatten, some fault⟩
  | .ok (s, none) => ⟨s.slots.toList.flatten, none⟩
  | .ok (s, some behind) => scan finish s behind
termination_by cs.length
decreasing_by exact Scanner.length_step_lt _h

/-- The distance in bytes to the first character that a text must not hold. -/
def forbidden? (offset : Nat) : List Char → Option Nat
  | [] => none
  | c :: rest => if isAllowed c then forbidden? (offset + c.utf8Size) rest else some offset

/-- Splits a text. -/
def tokenize (text : List Char) : Tokens :=
  match forbidden? 0 text with
  | some offset => ⟨[], some (.ofText (.controlCharacter offset))⟩
  | none =>
    let (cs, finish) := cells .start text
    scan finish .initial cs

end Yaml

end MetadataRules
